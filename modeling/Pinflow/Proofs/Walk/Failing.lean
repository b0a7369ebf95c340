import Pinflow.Proofs.Walk.Nesting
import Pinflow.Proofs.Walk.Break
import Pinflow.Proofs.Walk.Outlook

/-!
# Stories of walks that fail

Over nodes of the built-in kinds, what a failed walk tells falls in two parts. Up to some
moment nothing tells of a fault; that is when the fault was raised. From then on everything
tells of this one fault, so no step begins any more, and the steps that were open end with
it. A break outside of any loop is raised when all else has ended well.
-/

namespace Pinflow

open List

namespace Story

variable {origin : String} {circuit : Circuit}

/-- Nothing tells of a fault. -/
def Flawless (story : Story) : Prop := ∀ moment ∈ story, moment.happening.fault? = none

/-- The fault was raised when `before` had been told, and all that was told since tells of
it. -/
structure Raises (story before : Story) (fault : Fault) : Prop where
  flawless : before.Flawless
  since : ∃ after, story = after ++ before ∧ ∀ moment ∈ after, moment.happening.fault? = some fault

variable {story before earlier : Story} {fault : Fault} {moment : Moment}

theorem Flawless.cons (flawless : Flawless story) (plain : moment.happening.fault? = none) :
    Flawless (moment :: story) := forall_mem_cons.mpr ⟨plain, flawless⟩

/-- A fault that nothing has told of yet. -/
theorem Flawless.raises (flawless : Flawless story) (fault : Fault) : story.Raises story fault :=
  ⟨flawless, [], rfl, forall_mem_nil _⟩

theorem Raises.cons (raises : story.Raises before fault)
    (tells : moment.happening.fault? = some fault) : Raises (moment :: story) before fault := by
  obtain ⟨flawless, after, rfl, since⟩ := raises
  exact ⟨flawless, moment :: after, rfl, forall_mem_cons.mpr ⟨tells, since⟩⟩

theorem begins?_of_fault (tells : moment.happening.fault? = some fault) :
    moment.report.begins? = none := by
  obtain ⟨happening, walker⟩ := moment
  cases happening with
  | evaluated source result | executed node result => cases result <;> rfl
  | read => rfl
  | traversed => rfl
  | _ => cases tells

/-- What a step ends with is what its end tells of. -/
theorem fault?_of_closing {heading : Heading} {gives : Value} {error : Option Fault}
    (closes : moment.report = .closing heading gives error) :
    moment.happening.fault? = error := by
  obtain ⟨happening, walker⟩ := moment
  cases happening with
  | evaluated source result | executed node result => cases result <;> cases closes <;> rfl
  | _ => cases closes

/-- No step begins once a fault is on its way. -/
theorem Raises.headings (raises : story.Raises before fault) : story.headings = before.headings := by
  obtain ⟨-, after, rfl, since⟩ := raises
  have none : headings after = [] :=
    filterMap_eq_nil_iff.mpr fun moment member => begins?_of_fault (since moment member)
  rw [headings_append, none, nil_append]

theorem Raises.begun (raises : story.Raises before fault) : story.begun = before.begun :=
  congrArg length raises.headings

end Story

namespace Walk

variable {setting : Setting} {walker : Walker} {past : Past}

/-- The story of a walk tells of no fault until one is raised, and of that one from then on. -/
theorem outlook_story (setting : Setting) :
    Outlook (fun _ _ => True) setting (fun past => (story past).Flawless)
      (fun past => (story past).Flawless)
      (fun fault past => ∃ before, (story past).Raises before fault) where
  prepared flawless := flawless
  asks _ _ := trivial
  acts _ _ _ flawless := flawless
  tells _ _ flawless plain := flawless.cons plain
  raises flawless _ := ⟨_, flawless.raises _⟩
  handsOn := by
    rintro past fault happening walker ⟨before, raises⟩ tells
    exact ⟨trivial, before, raises.cons tells⟩
  checks flawless := ⟨trivial, ⟨_, flawless.raises _⟩, flawless⟩
  stops node walker past flawless := by
    refine checkpoint_upheld ?_ ?_ ?_ ?_ flawless
    · intro q walker past pausing flawless
      cases q <;> first | exact ⟨trivial, fun _ => flawless⟩ | exact pausing.elim
    · exact fun _ _ _ flawless => flawless
    · exact fun _ _ _ _ flawless => WP.change_iff.mpr ⟨trivial, flawless.cons rfl⟩
    · exact fun _ _ _ flawless => ⟨_, flawless.raises _⟩

theorem happenings_eq (past : Past) :
    happenings past = (story past).map Moment.happening := by
  rw [happenings, story, map_filterMap]
  congr 1
  funext exchange
  cases exchange.query <;> rfl

theorem fault?_of_carried {happening : Happening} (carries : carried happening = some origin) :
    happening.fault? = none := by
  cases happening with
  | executed node result =>
    cases result with
    | error => cases carries
    | ok => rfl
  | traversed source result =>
    cases result with
    | error => cases carries
    | ok => rfl
  | _ => cases carries

theorem begins?_handOn (origin : String) (frame : Frame) {moment : Moment}
    (leaves : moment.happening = frame.handOn origin) : moment.report.begins? = none := by
  obtain ⟨happening, walker⟩ := moment
  obtain rfl : happening = frame.handOn origin := leaves
  cases frame <;> rfl

/-- When a break leaves its frames, the last step that has begun is the node that broke. -/
theorem Raised.last_begun {story : Story}
    (raised : Raised circuit origin (story.map Moment.happening)) :
    story.headings.head? = some (.execution origin) := by
  obtain ⟨inner, earlier, split, -⟩ := raised
  obtain ⟨left, broke, rfl, leaves, most⟩ := map_eq_append_iff.mp split
  obtain ⟨⟨_, _⟩, began, rfl, rfl, rest⟩ := map_eq_cons_iff.mp most
  obtain ⟨⟨_, _⟩, older, rfl, rfl, -⟩ := map_eq_cons_iff.mp rest
  have none : Story.headings left = [] := by
    refine filterMap_eq_nil_iff.mpr fun moment member => ?_
    have leaving : moment.happening ∈ (inner.map (Frame.handOn origin)).reverse :=
      leaves ▸ mem_map_of_mem member
    obtain ⟨frame, -, same⟩ := mem_map.mp (mem_reverse.mp leaving)
    exact begins?_handOn origin frame same.symm
  rw [Story.headings_append, none, nil_append]
  rfl

/-- Where a break outside of any loop comes from. -/
theorem Concluded.raised {past : List Happening}
    (concluded : Concluded circuit (.error (.breakOutsideLoop origin)) past)
    (ordered : Ordered circuit past) : Raised circuit origin past := by
  have isPending := (concluded.broken origin).mp rfl
  apply ordered.raised isPending
  intro happening isLast fromBody
  obtain ⟨node, isDue⟩ := due_of_fromBody isPending isLast fromBody
  rw [concluded.due] at isDue
  cases isDue

/-- A break outside of any loop is raised when all else has ended, and the last step that has
begun is the node that broke. -/
theorem break_raised_last (wired : Circuit.Wired Registry.builtin setting.circuit) {depth : Nat}
    {entry : String} {context : Context} {before : Story}
    (course : (start setting depth entry context).Leads past
      (Dialogue.done (.error (.breakOutsideLoop origin), walker)))
    (raises : (story past).Raises before (.breakOutsideLoop origin)) :
    before = story past ∧ (story past).headings.head? = some (.execution origin) ∧
      setting.circuit.isOf Kinds.breaks origin = true := by
  obtain ⟨keeps, obeyed⟩ := order_of_course wired course
  have concluded : Concluded setting.circuit (.error (.breakOutsideLoop origin)) (happenings past) :=
    keeps
  have raised := concluded.raised (ordered_of_obeys obeyed)
  have isPending := (concluded.broken origin).mp rfl
  rw [happenings_eq] at raised isPending
  have last := raised.last_begun
  obtain ⟨-, -, -, -, -, isBreak⟩ := raised
  obtain ⟨-, after, split, since⟩ := raises
  cases after with
  | nil => exact ⟨split.symm, last, isBreak⟩
  | cons moment =>
    rw [split] at isPending
    have tells := since moment mem_cons_self
    rw [fault?_of_carried isPending] at tells
    cases tells

end Walk

end Pinflow
