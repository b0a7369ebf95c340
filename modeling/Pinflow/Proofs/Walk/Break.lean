import Pinflow.Proofs.Walk.Orderly

/-!
# Where a break goes

A loop is active while its body is being followed; one that follows `completed` is not.
`break_reaches_nearest_loop` says what a break does in every walk over built-in kinds. If
some loop is active, all frames inside the innermost one are left, one after the other and
with nothing in between, and then that loop follows `completed`; when control comes back
from there the loop ends. If no loop is active, all frames are left and the walk fails with
the break. It fails so in no other case.
-/

namespace Pinflow.Walk

open List

variable {happening : Happening} {past : List Happening} {stack outer : List Frame} {frame : Frame}
  {loop : String}

/-- The walk announces exactly these happenings next, in this order, and asks nothing else
in between. -/
inductive Announces {α : Type} : Walk α → List Happening → Walk α → Prop
  | nil {walk : Walk α} : Announces walk [] walk
  | cons {happening : Happening} {walker : Walker} {next : Unit → Walk α}
      {happenings : List Happening} {rest : Walk α}
      (more : Announces (next ()) happenings rest) :
      Announces (Dialogue.ask (.announce ⟨happening, walker⟩) next) (happening :: happenings) rest

theorem Announces.append {α : Type} {first second third : Walk α} {list more : List Happening}
    (before : Announces first list second) (after : Announces second more third) :
    Announces first (list ++ more) third := by
  induction before with
  | nil => exact after
  | cons _ ih => exact .cons (ih after)

def Frame.activeLoop? : Frame → Option String
  | .pin source => if source.pin = Loop.bodyPin then some source.node else none
  | .node _ => none

/-- The loops whose bodies are being followed, innermost first. -/
def activeLoops (stack : List Frame) : List String := stack.filterMap Frame.activeLoop?

def Stacked (circuit : Circuit) (stack : List Frame) : Prop :=
  ∀ inner node pin outer, stack = inner ++ .pin ⟨node, pin⟩ :: outer → IsLoopPin pin →
    circuit.isOf Kinds.loops node = true ∧ outer.head? = some (.node node)

def Ordered (circuit : Circuit) (past : List Happening) : Prop :=
  ∀ later happening earlier, past = later ++ happening :: earlier →
    Allowed circuit earlier (some happening)

variable {circuit : Circuit}

theorem Ordered.cons (ordered : Ordered circuit (happening :: past)) :
    Allowed circuit past (some happening) ∧ Ordered circuit past := by
  refine ⟨ordered [] happening past rfl, fun later other earlier split => ?_⟩
  exact ordered (happening :: later) other earlier (by rw [split]; rfl)

theorem Stacked.tail (stacked : Stacked circuit stack) : Stacked circuit stack.tail := by
  intro inner node pin outer split
  cases stack with
  | nil => exact stacked inner node pin outer split
  | cons frame =>
    exact stacked (frame :: inner) node pin outer (by rw [cons_append, ← split]; rfl)

theorem Stacked.cons (stacked : Stacked circuit stack)
    (under : ∀ node pin, frame = .pin ⟨node, pin⟩ → IsLoopPin pin →
      circuit.isOf Kinds.loops node = true ∧ stack.head? = some (.node node)) :
    Stacked circuit (frame :: stack) := by
  intro inner node pin outer split isLoop
  cases inner with
  | nil =>
    obtain ⟨same, rfl⟩ := cons.inj split
    exact under node pin same isLoop
  | cons other inner =>
    obtain ⟨-, split⟩ := cons.inj split
    exact stacked inner node pin outer split isLoop

theorem Ordered.stacked (ordered : Ordered circuit past) : Stacked circuit (frames past) := by
  induction past with
  | nil =>
    intro inner node pin outer split
    simp [frames] at split
  | cons happening past ih =>
    obtain ⟨allowed, before⟩ := ordered.cons
    have stacked := ih before
    cases happening with
    | executing => exact stacked.cons (by simp)
    | executed => exact stacked.tail
    | traversing =>
      refine stacked.cons fun node pin same isLoop => ?_
      cases same
      exact allowed.lawful _ rfl isLoop
    | traversed => exact stacked.tail
    | _ => exact stacked

def Keeps (circuit : Circuit) (rest : Walk (Except Fault Unit × Walker)) (past : Past) : Prop :=
  Dialogue.WP (orderRule circuit)
    (fun result past => Concluded circuit result.1 (happenings past)) rest past

section unwinding

variable {rest : Walk (Except Fault Unit × Walker)} {past : Past} {origin : String}

theorem Keeps.announces_due (keeps : Keeps circuit rest past)
    (isDue : due circuit (happenings past) = some happening) :
    ∃ walker next, Announces rest [happening] next ∧
      Keeps circuit next (told happening walker :: past) := by
  cases rest with
  | done result =>
    have concluded : Concluded circuit result.1 (happenings past) := keeps
    rw [concluded.due] at isDue
    cases isDue
  | ask q next =>
    have announced := keeps.1.prompt happening isDue
    cases q with
    | announce moment =>
      cases announced
      exact ⟨moment.walker, next (), .cons .nil, keeps.2 ()⟩
    | _ => cases announced

/-- A break that has left all frames ends the walk. -/
theorem Keeps.done_of_pending (keeps : Keeps circuit rest past)
    (isPending : pending (happenings past) = some origin)
    (none : due circuit (happenings past) = none) :
    ∃ walker, rest = .done (.error (.breakOutsideLoop origin), walker) := by
  cases rest with
  | done result =>
    have concluded : Concluded circuit result.1 (happenings past) := keeps
    refine ⟨result.2, ?_⟩
    rw [← (concluded.broken origin).mpr isPending]
  | ask =>
    have possible := keeps.1.possible (by rw [isPending]; rfl)
    rw [none] at possible
    cases possible

/-- A break is on its way out of the innermost frame. -/
structure Leaving (circuit : Circuit) (origin : String) (stack : List Frame) (past : Past) :
    Prop where
  pending : pending (happenings past) = some origin
  due : due circuit (happenings past) = handedOn (happenings past)
  frames : frames (happenings past) = stack
  stacked : Stacked circuit stack

/-- A break leaves a frame. Only out of a loop's body does it lead anywhere else than to
the next frame. -/
theorem Leaving.step (leaving : Leaving circuit origin (frame :: stack) past) (walker : Walker)
    (other : frame.activeLoop? = none) :
    Leaving circuit origin stack (told (frame.handOn origin) walker :: past) := by
  have closed : Walk.frames (frame.handOn origin :: happenings past) = stack := by
    cases frame <;> simp only [Frame.handOn, Walk.frames, leaving.frames, tail_cons]
  have carries : carried (frame.handOn origin) = some origin := by
    cases frame <;> rfl
  refine ⟨carries, ?_, closed, leaving.stacked.tail⟩
  cases frame with
  | node => rfl
  | pin source =>
    have notBody : source.pin ≠ Loop.bodyPin := by
      intro same
      simp [Frame.activeLoop?, same] at other
    by_cases completed : source.pin = Loop.completedPin
    · -- The loop that followed `completed` lies right under this frame.
      obtain ⟨-, under⟩ := leaving.stacked [] source.node source.pin stack rfl (.inr completed)
      have handed : handedOn (Frame.handOn origin (.pin source) :: happenings past) =
          some (.executed source.node (.ok (.forward (.broken origin)))) := by
        rw [handedOn, closed, under]
        rfl
      rw [happenings_told, handed]
      simp [Frame.handOn, Walk.due, completed, Except.map]
    · simp [Frame.handOn, Walk.due, completed, notBody]

/-- A break leaves the frames up to the body of the nearest loop. -/
theorem Leaving.unwinds {inner : List Frame}
    (leaving : Leaving circuit origin (inner ++ outer) past) (keeps : Keeps circuit rest past)
    (inactive : activeLoops inner = []) :
    ∃ next after, Announces rest (inner.map (Frame.handOn origin)) next ∧
      Leaving circuit origin outer after ∧ Keeps circuit next after := by
  induction inner generalizing rest past with
  | nil => exact ⟨rest, past, .nil, leaving, keeps⟩
  | cons frame inner ih =>
    have isDue : Walk.due circuit (happenings past) = some (frame.handOn origin) := by
      rw [leaving.due, handedOn, leaving.pending, leaving.frames]
      rfl
    have other : frame.activeLoop? = none ∧ activeLoops inner = [] := by
      cases active : frame.activeLoop? with
      | none =>
        refine ⟨rfl, ?_⟩
        rwa [activeLoops, filterMap_cons_none active] at inactive
      | some => simp [activeLoops, active] at inactive
    obtain ⟨walker, next, announces, keeps⟩ := keeps.announces_due isDue
    obtain ⟨last, after, more, leaving, keeps⟩ := ih (leaving.step walker other.1) keeps other.2
    exact ⟨last, after, announces.append more, leaving, keeps⟩

/-- A break that comes out of the body of a loop leads to its `completed` pin. -/
theorem Leaving.completes
    (leaving : Leaving circuit origin (.pin ⟨loop, Loop.bodyPin⟩ :: outer) past)
    (keeps : Keeps circuit rest past) :
    ∃ next after, Announces rest
        [.traversed ⟨loop, Loop.bodyPin⟩ (.ok (.broken origin)),
          .traversing ⟨loop, Loop.completedPin⟩] next ∧ Keeps circuit next after := by
  have isDue : Walk.due circuit (happenings past) =
      some (.traversed ⟨loop, Loop.bodyPin⟩ (.ok (.broken origin))) := by
    rw [leaving.due, handedOn, leaving.pending, leaving.frames]
    rfl
  obtain ⟨walker, back, comes, keeps⟩ := keeps.announces_due isDue
  obtain ⟨walker', next, leads, keeps⟩ := keeps.announces_due due_of_body
  exact ⟨next, _, comes.append leads, keeps⟩

end unwinding

/-- The frames around the innermost active loop. -/
theorem split_of_activeLoops {others : List String} (active : activeLoops stack = loop :: others) :
    ∃ inner outer, stack = inner ++ .pin ⟨loop, Loop.bodyPin⟩ :: outer ∧
      activeLoops inner = [] := by
  obtain ⟨inner, frame, outer, rfl, none, isLoop, -⟩ := filterMap_eq_cons_iff.mp active
  cases frame with
  | node => cases isLoop
  | pin source =>
    have body : source.pin = Loop.bodyPin := by
      by_contra other
      simp [Frame.activeLoop?, other] at isLoop
    obtain rfl : source = ⟨loop, Loop.bodyPin⟩ := by
      cases source
      cases body
      cases isLoop
      rfl
    exact ⟨inner, outer, rfl, filterMap_eq_nil_iff.mpr none⟩

/-- A break node has just raised a break, which has left some frames since. None of them
was the body of a loop. -/
def Raised (circuit : Circuit) (origin : String) (past : List Happening) : Prop :=
  ∃ inner earlier, past = (inner.map (Frame.handOn origin)).reverse ++
      .executed origin (.ok .break) :: .executing origin :: earlier ∧
    frames earlier = inner ++ frames past ∧ activeLoops inner = [] ∧
    circuit.isOf Kinds.breaks origin = true

variable {origin : String}

theorem Raised.handOn (raised : Raised circuit origin past)
    (top : (frames past).head? = some frame) (inactive : frame.activeLoop? = none) :
    Raised circuit origin (frame.handOn origin :: past) := by
  obtain ⟨inner, earlier, split, same, none, isBreak⟩ := raised
  have opened : frames past = frame :: frames (frame.handOn origin :: past) := by
    have closed : frames (frame.handOn origin :: past) = (frames past).tail := by
      cases frame <;> rfl
    rw [closed]
    exact (cons_head?_tail top).symm
  refine ⟨inner ++ [frame], earlier, ?_, ?_, ?_, isBreak⟩
  · rw [map_append, reverse_append, append_assoc, ← split]
    rfl
  · rw [same, opened, append_assoc]
    rfl
  · rw [activeLoops, filterMap_append, filterMap_cons_none inactive]
    exact append_eq_nil_iff.mpr ⟨none, rfl⟩

def FromBody (happening : Happening) : Prop :=
  ∃ node result, happening = .traversed ⟨node, Loop.bodyPin⟩ result

theorem due_of_fromBody (isPending : pending past = some origin)
    (isLast : past.head? = some happening) (fromBody : FromBody happening) :
    ∃ node, due circuit past = some (.traversing ⟨node, Loop.completedPin⟩) := by
  obtain ⟨node, result, rfl⟩ := fromBody
  obtain ⟨earlier, rfl⟩ := head?_eq_some_iff.mp isLast
  rcases result with fault | signal
  · cases isPending
  · cases signal with
    | done => cases isPending
    | broken => exact ⟨node, due_of_body⟩

/-- A break that is on its way, and has not come out of the body of a loop, was raised by
a break node inside the frames it has left. -/
theorem Ordered.raised (ordered : Ordered circuit past) (isPending : pending past = some origin)
    (inside : ∀ happening, past.head? = some happening → ¬ FromBody happening) :
    Raised circuit origin past := by
  induction past with
  | nil => cases isPending
  | cons happening past ih =>
    obtain ⟨allowed, ordered⟩ := ordered.cons
    have lawful := allowed.lawful happening rfl
    have carries : carried happening = some origin := isPending
    -- A break that comes out of a body is followed by `completed`, which carries nothing.
    have before : pending past = some origin → Raised circuit origin past := by
      intro isPending
      refine ih ordered isPending fun last isLast fromBody => ?_
      obtain ⟨node, isDue⟩ := due_of_fromBody isPending isLast fromBody
      cases allowed.prompt _ isDue
      cases carries
    cases happening with
    | executed node result =>
      obtain ⟨top, breaks, forwards⟩ := lawful
      rcases result with fault | flow
      · cases carries
      · cases flow with
        | «break» =>
          cases carries
          obtain ⟨isBreak, last⟩ := breaks rfl
          obtain ⟨earlier, rfl⟩ := head?_eq_some_iff.mp last
          exact ⟨[], earlier, rfl, rfl, rfl, isBreak⟩
        | forward signal =>
          cases signal with
          | done => cases carries
          | broken =>
            cases carries
            exact (before (forwards _ rfl)).handOn top rfl
        | _ => cases carries
    | traversed source result =>
      obtain ⟨top, forwards⟩ := lawful
      rcases result with fault | signal
      · cases carries
      · cases signal with
        | done => cases carries
        | broken =>
          cases carries
          refine (before (forwards _ rfl)).handOn top (if_neg fun body => ?_)
          exact inside _ rfl ⟨source.node, _, by cases source; cases body; rfl⟩
    | _ => cases carries

/-- What a break does that is raised where these frames are open: it leaves the frames
inside the body of the nearest active loop, which then follows `completed` and ends when
control comes back from there. Without an active loop it leaves all frames and ends the
walk. -/
def BreaksOut (circuit : Circuit) (origin : String) (stack : List Frame)
    (rest : Walk (Except Fault Unit × Walker)) : Prop :=
  match activeLoops stack with
  | loop :: _ => ∃ inner outer next,
    stack = inner ++ .pin ⟨loop, Loop.bodyPin⟩ :: .node loop :: outer ∧
    activeLoops inner = [] ∧ circuit.isOf Kinds.loops loop = true ∧
    Announces rest (.executed origin (.ok .break) :: (inner.map (Frame.handOn origin) ++
      [.traversed ⟨loop, Loop.bodyPin⟩ (.ok (.broken origin)),
        .traversing ⟨loop, Loop.completedPin⟩])) next ∧
    ∀ more last result between, next.Leads more last →
      happenings more = .traversed ⟨loop, Loop.completedPin⟩ result :: between →
      ∃ final, Announces last [.executed loop (result.map .forward)] final
  | [] => ∃ walker,
    Announces rest (.executed origin (.ok .break) :: stack.map (Frame.handOn origin))
      (.done (.error (.breakOutsideLoop origin), walker))

theorem breaksOut_of_keeps {rest : Walk (Except Fault Unit × Walker)} {past : Past}
    {earlier : List Happening} (keeps : Keeps circuit rest past)
    (isBreak : circuit.isOf Kinds.breaks origin = true)
    (last : happenings past = .executing origin :: earlier)
    (stacked : Stacked circuit (frames earlier)) :
    BreaksOut circuit origin (frames earlier) rest := by
  have isDue : due circuit (happenings past) = some (.executed origin (.ok .break)) := by
    rw [last]
    simp [due, isBreak]
  obtain ⟨walker, broken, breaks, keeps⟩ := keeps.announces_due isDue
  have same : frames (happenings (told (.executed origin (.ok .break)) walker :: past)) =
      frames earlier := by
    rw [happenings_told, last]
    rfl
  rw [BreaksOut]
  cases active : activeLoops (frames earlier) with
  | cons loop =>
    obtain ⟨inner, outer, split, inactive⟩ := split_of_activeLoops active
    obtain ⟨isLoop, under⟩ := stacked inner loop Loop.bodyPin outer split (.inl rfl)
    obtain ⟨outer, rfl⟩ := head?_eq_some_iff.mp under
    have leaving : Leaving circuit origin
        (inner ++ .pin ⟨loop, Loop.bodyPin⟩ :: .node loop :: outer)
        (told (.executed origin (.ok .break)) walker :: past) :=
      ⟨rfl, rfl, same.trans split, split ▸ stacked⟩
    obtain ⟨left, after, unwinds, leaving, keeps⟩ := leaving.unwinds keeps inactive
    obtain ⟨next, after, completes, keeps⟩ := leaving.completes keeps
    refine ⟨inner, outer, next, split, inactive, isLoop,
      breaks.append (unwinds.append completes), ?_⟩
    intro more last result between course back
    have keeps : Keeps circuit last (more ++ after) := Dialogue.WP.rest keeps course
    have isDue : due circuit (happenings (more ++ after)) =
        some (.executed loop (result.map .forward)) := by
      rw [happenings_append, back]
      exact due_of_completed
    obtain ⟨walker, final, ends, -⟩ := keeps.announces_due isDue
    exact ⟨final, ends⟩
  | nil =>
    have leaving : Leaving circuit origin (frames earlier ++ [])
        (told (.executed origin (.ok .break)) walker :: past) := by
      rw [append_nil]
      exact ⟨rfl, rfl, same, stacked⟩
    obtain ⟨left, after, unwinds, leaving, keeps⟩ := leaving.unwinds keeps active
    have none : due circuit (happenings after) = none := by
      rw [leaving.due, handedOn, leaving.pending, leaving.frames]
      rfl
    obtain ⟨walker, rfl⟩ := keeps.done_of_pending leaving.pending none
    exact ⟨walker, breaks.append unwinds⟩

theorem ordered_of_obeys {past : Past} (obeyed : History.Obeys (orderRule circuit) past) :
    Ordered circuit (happenings past) := by
  intro later happening earlier split
  obtain ⟨walker, before, rfl, allowed⟩ := Obeys.happening obeyed split
  exact allowed

/-- In every walk over a loaded graph of built-in kinds, whenever a break node executes,
the break reaches exactly the nearest active loop, or ends the walk if none is active; and
a walk fails with a break outside of any loop only after a break node has executed where no
loop was active. -/
theorem break_reaches_nearest_loop {graph : Graph} {circuit : Circuit}
    (loaded : Circuit.load Registry.builtin graph = .ok circuit)
    (invocation capability : String) (maxIterations maxSnapshot depth : Nat) (entry : String)
    (context : Context) (past : Past) (rest : Walk (Except Fault Unit × Walker))
    (course : (start (.of circuit invocation capability maxIterations maxSnapshot) depth entry
      context).Leads past rest) :
    (∀ origin earlier, circuit.isOf Kinds.breaks origin = true →
        happenings past = .executing origin :: earlier →
        BreaksOut circuit origin (frames earlier) rest) ∧
      ∀ origin walker, rest = .done (.error (.breakOutsideLoop origin), walker) →
        ∃ earlier, happenings past = ((frames earlier).map (Frame.handOn origin)).reverse ++
            .executed origin (.ok .break) :: .executing origin :: earlier ∧
          activeLoops (frames earlier) = [] ∧ circuit.isOf Kinds.breaks origin = true := by
  obtain ⟨keeps, obeyed⟩ := order_of_course (Circuit.wired_of_load loaded) course
  have keeps : Keeps circuit rest past := keeps
  have ordered : Ordered circuit (happenings past) := ordered_of_obeys obeyed
  constructor
  · intro origin earlier isBreak last
    have before : Ordered circuit earlier := (last ▸ ordered).cons.2
    exact breaksOut_of_keeps keeps isBreak last before.stacked
  · rintro origin walker rfl
    have concluded : Concluded circuit (.error (.breakOutsideLoop origin)) (happenings past) :=
      keeps
    have isPending := (concluded.broken origin).mp rfl
    have inside : ∀ happening, (happenings past).head? = some happening →
        ¬ FromBody happening := by
      intro happening isLast fromBody
      obtain ⟨node, isDue⟩ := due_of_fromBody isPending isLast fromBody
      rw [concluded.due] at isDue
      cases isDue
    obtain ⟨inner, earlier, split, same, inactive, isBreak⟩ := ordered.raised isPending inside
    rw [concluded.frames, append_nil] at same
    exact ⟨earlier, same ▸ split, same ▸ inactive, isBreak⟩

/-- A loop over two elements in a loop over two, whose inner body is a sequence that
breaks at its first output and would log at its second. -/
def breakingLoops : Graph where
  id := "loops"
  nodes := [
    { id := "start", kind := "on_event" },
    { id := "list", kind := "constant", config := [("value", .arr [.int 1, .int 2])] },
    { id := "outer", kind := "for_each" },
    { id := "inner", kind := "for_each" },
    { id := "twice", kind := "sequence" },
    { id := "stop", kind := "break_loop" },
    { id := "say", kind := "log" }]
  edges := [
    ⟨⟨"start", "then"⟩, ⟨"outer", "exec"⟩⟩, ⟨⟨"list", "value"⟩, ⟨"outer", "array"⟩⟩,
    ⟨⟨"outer", "loop_body"⟩, ⟨"inner", "exec"⟩⟩, ⟨⟨"list", "value"⟩, ⟨"inner", "array"⟩⟩,
    ⟨⟨"inner", "loop_body"⟩, ⟨"twice", "exec"⟩⟩, ⟨⟨"twice", "then_0"⟩, ⟨"stop", "exec"⟩⟩,
    ⟨⟨"twice", "then_1"⟩, ⟨"say", "exec"⟩⟩]

theorem break_reaches_nearest_loop_breakingLoops :
    BreaksOut (.ofGraph breakingLoops) "stop"
      [.pin ⟨"twice", "then_0"⟩, .node "twice", .pin ⟨"inner", "loop_body"⟩, .node "inner",
        .pin ⟨"outer", "loop_body"⟩, .node "outer", .pin ⟨"start", "then"⟩]
      (tour breakingLoops [] 40).2 := by
  have loaded : Circuit.load Registry.builtin breakingLoops = .ok (.ofGraph breakingLoops) := rfl
  have last : happenings (tour breakingLoops [] 40).1 =
      .executing "stop" :: happenings (tour breakingLoops [] 39).1 := rfl
  exact (break_reaches_nearest_loop loaded "" "" 10 10 100 "start" {} _ _
    (leads_tour breakingLoops [] 40)).1 "stop" _ rfl last

end Pinflow.Walk
