import Pinflow.Trace.Recorder

/-!
# Stories

A story is what the observers of a walk were told, latest moment first. It says which steps
have begun, which of them are still open and how they lie inside each other, which inputs
were supplied to which step, and what was noted when. Nothing here looks at a recorder.
-/

namespace Pinflow

open List

structure Heading where
  node : String
  kind : StepKind
  pin : Option String
deriving DecidableEq

def Step.heading (step : Step) : Heading := ⟨step.node, step.kind, step.pin⟩

def Heading.evaluation (source : PinRef) : Heading := ⟨source.node, .evaluation, some source.pin⟩

def Heading.execution (node : String) : Heading := ⟨node, .execution, none⟩

def Heading.traversal (source : PinRef) : Heading := ⟨source.node, .traversal, some source.pin⟩

/-- What a moment means to those who follow the steps of a walk. -/
inductive Report where
  /-- A step begins and stays open. -/
  | opening (heading : Heading) (given : Value)
  /-- The innermost open step ends. -/
  | closing (heading : Heading) (gives : Value) (fault : Option Fault)
  /-- A data input got its value. -/
  | supply (node pin : String) (value : Value)
  /-- An exec edge is followed, which is a step of its own. -/
  | edge (source target : PinRef)
  | note (node message : String)
  | other

def Report.begins? : Report → Option Heading
  | .opening heading _ => some heading
  | .edge source _ => some (.traversal source)
  | _ => none

def Moment.report (moment : Moment) : Report :=
  match moment.happening with
  | .evaluating source config =>
    .opening (.evaluation source) (.object [("config", .obj config)])
  | .evaluated source (.ok value) => .closing (.evaluation source) value none
  | .evaluated source (.error fault) => .closing (.evaluation source) .null (some fault)
  | .executing node => .opening (.execution node) (Recorder.recordedVars moment.walker)
  | .executed node (.ok _) =>
    .closing (.execution node) (Recorder.recordedVars moment.walker) none
  | .executed node (.error fault) =>
    .closing (.execution node) (Recorder.recordedVars moment.walker) (some fault)
  | .supplied node pin value => .supply node pin value
  | .followed source target => .edge source target
  | .noted node message => .note node message
  | _ => .other

/-- What the observers of a walk were told, latest first. -/
abbrev Story := List Moment

namespace Story

/-- The headings of the steps that have begun, latest first. -/
def headings (story : Story) : List Heading := story.filterMap fun moment => moment.report.begins?

/-- How many steps have begun. The next one gets this number. -/
def begun (story : Story) : Nat := (headings story).length

/-- The open steps with their numbers, innermost first. -/
def opened : Story → List (Heading × Nat)
  | [] => []
  | moment :: earlier =>
    match moment.report with
    | .opening heading _ => (heading, begun earlier) :: opened earlier
    | .closing .. => (opened earlier).tail
    | _ => opened earlier

def innermost? (node : String) (story : Story) : Option Nat :=
  ((opened story).find? fun entry => entry.1.node == node).map Prod.snd

/-- The inputs that their node resolved while a step was its innermost open one, latest
first. -/
def resolved (number : Nat) : Story → List (String × Value)
  | [] => []
  | moment :: earlier =>
    match moment.report with
    | .supply node pin value =>
      if innermost? node earlier = some number then (pin, value) :: resolved number earlier
      else resolved number earlier
    | _ => resolved number earlier

def last? (story : Story) : Option Nat :=
  match begun story with
  | 0 => none
  | count + 1 => some count

/-- The remarks, latest first, each with the last step that had begun before it. -/
def notes : Story → List Note
  | [] => []
  | moment :: earlier =>
    match moment.report with
    | .note node message => ⟨last? earlier, node, message⟩ :: notes earlier
    | _ => notes earlier

/-- A moment that came while a step was the innermost open one. -/
def Within (story : Story) (number : Nat) (moment : Moment) : Prop :=
  ∃ later earlier heading, story = later ++ moment :: earlier ∧
    (opened earlier).head? = some (heading, number)

def StillOpen (number : Nat) (story : Story) : Prop := number ∈ (opened story).map Prod.snd

structure Ended (number : Nat) (story : Story) : Prop where
  begun : number < story.begun
  closed : ¬ StillOpen number story

variable {moment start : Moment} {earlier story : Story} {heading : Heading} {given : Value}
  {number : Nat}

theorem headings_append (later earlier : Story) :
    headings (later ++ earlier) = headings later ++ headings earlier := filterMap_append

theorem begun_append (later earlier : Story) :
    begun (later ++ earlier) = begun later + begun earlier := by
  rw [begun, headings_append, length_append]
  rfl

theorem headings_cons (moment : Moment) (earlier : Story) :
    headings (moment :: earlier) = moment.report.begins?.toList ++ headings earlier := by
  cases begins : moment.report.begins? with
  | none => exact filterMap_cons_none begins
  | some => exact filterMap_cons_some begins

theorem begun_cons_of_some (begins : moment.report.begins? = some heading) :
    begun (moment :: earlier) = begun earlier + 1 := by
  rw [begun, headings_cons, begins]
  rfl

theorem begun_le_cons (moment : Moment) (earlier : Story) :
    begun earlier ≤ begun (moment :: earlier) := by
  have := begun_append [moment] earlier
  rw [singleton_append] at this
  omega

theorem begins?_of_opening (opens : moment.report = .opening heading given) :
    moment.report.begins? = some heading := by
  rw [opens]
  rfl

/-- How a moment changes which steps are open. -/
theorem opened_cons (moment : Moment) (earlier : Story) :
    (∃ heading given, moment.report = .opening heading given ∧
      opened (moment :: earlier) = (heading, begun earlier) :: opened earlier) ∨
    (∃ heading gives fault, moment.report = .closing heading gives fault ∧
      opened (moment :: earlier) = (opened earlier).tail) ∨
    opened (moment :: earlier) = opened earlier := by
  rw [opened]
  cases moment.report with
  | opening heading given => exact .inl ⟨heading, given, rfl, rfl⟩
  | closing heading gives fault => exact .inr (.inl ⟨heading, gives, fault, rfl, rfl⟩)
  | _ => exact .inr (.inr rfl)

theorem StillOpen.of_cons (isOpen : StillOpen number (moment :: earlier)) :
    StillOpen number earlier ∨ number = begun earlier := by
  rw [StillOpen] at isOpen
  obtain ⟨heading, given, -, grows⟩ | ⟨heading, gives, fault, -, shrinks⟩ | same :=
    opened_cons moment earlier
  · rw [grows] at isOpen
    exact (mem_cons.mp isOpen).symm
  · rw [shrinks, map_tail] at isOpen
    exact .inl (mem_of_mem_tail isOpen)
  · rw [same] at isOpen
    exact .inl isOpen

/-- A step that is open has begun. -/
theorem StillOpen.lt (isOpen : StillOpen number story) : number < begun story := by
  induction story with
  | nil => cases isOpen
  | cons moment earlier ih =>
    obtain ⟨heading, given, report, grows⟩ | ⟨heading, gives, fault, -, shrinks⟩ | same :=
      opened_cons moment earlier
    · rw [begun_cons_of_some (begins?_of_opening report)]
      obtain isOpen | rfl := isOpen.of_cons
      · exact Nat.lt_succ_of_lt (ih isOpen)
      · exact Nat.lt_succ_self _
    · rw [StillOpen, shrinks, map_tail] at isOpen
      exact Nat.lt_of_lt_of_le (ih (mem_of_mem_tail isOpen)) (begun_le_cons moment earlier)
    · rw [StillOpen, same] at isOpen
      exact Nat.lt_of_lt_of_le (ih isOpen) (begun_le_cons moment earlier)

/-- A step that had begun and is open was open before. -/
theorem StillOpen.before (isOpen : StillOpen number (moment :: earlier)) (has : number < begun earlier) :
    StillOpen number earlier := by
  obtain before | same := isOpen.of_cons
  · exact before
  · omega

/-- A step that has ended does not open again. -/
theorem Ended.append (ended : Ended number story) (later : Story) :
    Ended number (later ++ story) := by
  induction later with
  | nil => exact ended
  | cons moment later ih =>
    refine ⟨Nat.lt_of_lt_of_le ih.begun (begun_le_cons moment _), fun isOpen => ?_⟩
    exact ih.closed (isOpen.before ih.begun)

/-- The innermost open step has ended when a step ends. -/
theorem ended_of_closing {ending : Moment} {other : Heading} {gives : Value}
    {fault : Option Fault} (closes : ending.report = .closing other gives fault)
    (isInnermost : opened story = (heading, begun earlier) :: opened earlier) :
    Ended (begun earlier) (ending :: story) := by
  have isOpen : StillOpen (begun earlier) story := by
    rw [StillOpen, isInnermost]
    exact mem_cons_self
  refine ⟨Nat.lt_of_lt_of_le isOpen.lt (begun_le_cons ending story), ?_⟩
  rw [StillOpen, opened, closes, isInnermost]
  exact fun isOpen => Nat.lt_irrefl _ (StillOpen.lt isOpen)

/-- The step of an edge has ended as soon as it has begun. -/
theorem ended_of_edge {source target : PinRef} (follows : moment.report = .edge source target) :
    Ended (begun earlier) (moment :: earlier) := by
  have begins : moment.report.begins? = some (.traversal source) := by
    rw [follows]
    rfl
  constructor
  · rw [begun_cons_of_some begins]
    exact Nat.lt_succ_self _
  · rw [StillOpen, opened, follows]
    exact fun isOpen => Nat.lt_irrefl _ (StillOpen.lt isOpen)

/-- While a step is open, what was open before it lies below it and what has opened since
lies above it. -/
theorem opened_of_stillOpen (opens : start.report = .opening heading given) {later : Story}
    (isOpen : StillOpen (begun earlier) (later ++ start :: earlier)) :
    ∃ inner, opened (later ++ start :: earlier) =
        inner ++ (heading, begun earlier) :: opened earlier ∧
      ∀ entry ∈ inner, begun earlier < entry.2 := by
  have has : begun earlier < begun (start :: earlier) := by
    rw [begun_cons_of_some (begins?_of_opening opens)]
    exact Nat.lt_succ_self _
  induction later with
  | nil =>
    refine ⟨[], ?_, forall_mem_nil _⟩
    rw [nil_append, opened, opens]
    rfl
  | cons moment later ih =>
    have before : StillOpen (begun earlier) (later ++ start :: earlier) := by
      rw [cons_append] at isOpen
      apply isOpen.before
      rw [begun_append]
      omega
    obtain ⟨inner, stack, above⟩ := ih before
    obtain ⟨other, value, -, grows⟩ | ⟨other, gives, fault, -, shrinks⟩ | same :=
      opened_cons moment (later ++ start :: earlier)
    · refine ⟨(other, begun (later ++ start :: earlier)) :: inner, ?_, ?_⟩
      · rw [cons_append, grows, stack]
        rfl
      · refine forall_mem_cons.mpr ⟨?_, above⟩
        rw [begun_append]
        omega
    · rw [stack] at shrinks
      cases inner with
      | nil =>
        rw [cons_append, StillOpen, shrinks] at isOpen
        exact absurd (StillOpen.lt isOpen) (Nat.lt_irrefl _)
      | cons entry inner =>
        exact ⟨inner, shrinks, fun entry member => above entry (mem_cons_of_mem _ member)⟩
    · exact ⟨inner, same.trans stack, above⟩

/-- A step that is open no more was the innermost open one when it ended. -/
theorem exists_closing (opens : start.report = .opening heading given) {later : Story}
    (closed : ¬ StillOpen (begun earlier) (later ++ start :: earlier)) :
    ∃ after ending inside other gives fault, later = after ++ ending :: inside ∧
      ending.report = .closing other gives fault ∧
      opened (inside ++ start :: earlier) = (heading, begun earlier) :: opened earlier := by
  induction later with
  | nil =>
    rw [nil_append, StillOpen, opened, opens] at closed
    exact absurd mem_cons_self closed
  | cons moment later ih =>
    by_cases before : StillOpen (begun earlier) (later ++ start :: earlier)
    · obtain ⟨inner, stack, -⟩ := opened_of_stillOpen opens before
      have member : begun earlier ∈ ((heading, begun earlier) :: opened earlier).map Prod.snd :=
        mem_cons_self
      rw [cons_append, StillOpen] at closed
      obtain ⟨other, value, -, grows⟩ | ⟨other, gives, fault, closes, shrinks⟩ | same :=
        opened_cons moment (later ++ start :: earlier)
      · rw [grows] at closed
        exact absurd (mem_cons_of_mem _ before) closed
      · cases inner with
        | nil => exact ⟨[], moment, later, other, gives, fault, rfl, closes, stack⟩
        | cons =>
          rw [shrinks, stack, cons_append, tail_cons, map_append] at closed
          exact absurd (mem_append_right _ member) closed
      · rw [same] at closed
        exact absurd before closed
    · obtain ⟨after, ending, inside, other, gives, fault, rfl, closes, stack⟩ := ih before
      exact ⟨moment :: after, ending, inside, other, gives, fault, rfl, closes, stack⟩

/-- Nothing is supplied to a step that is not open. -/
theorem innermost?_ne (closed : ¬ StillOpen number story) (node : String) :
    innermost? node story ≠ some number := by
  intro found
  obtain ⟨entry, isFound, rfl⟩ := Option.map_eq_some_iff.mp found
  exact closed (mem_map_of_mem (mem_of_find?_eq_some isFound))

theorem resolved_cons_of_not_stillOpen (closed : ¬ StillOpen number earlier) (moment : Moment) :
    resolved number (moment :: earlier) = resolved number earlier := by
  rw [resolved]
  cases moment.report with
  | supply node => exact if_neg (innermost?_ne closed node)
  | _ => rfl

/-- After a step has ended nothing more is resolved for it. -/
theorem resolved_append (ended : Ended number story) (later : Story) :
    resolved number (later ++ story) = resolved number story := by
  induction later with
  | nil => rfl
  | cons moment later ih =>
    rw [cons_append, resolved_cons_of_not_stillOpen (ended.append later).closed, ih]

/-- Before a step has begun nothing is resolved for it. -/
theorem resolved_of_unbegun (unbegun : begun story ≤ number) : resolved number story = [] := by
  induction story with
  | nil => rfl
  | cons moment earlier ih =>
    have before := Nat.le_trans (begun_le_cons moment earlier) unbegun
    have closed : ¬ StillOpen number earlier := fun isOpen => by
      have := isOpen.lt
      omega
    rw [resolved_cons_of_not_stillOpen closed, ih before]

end Story

end Pinflow
