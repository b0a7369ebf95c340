import Pinflow.Proofs.Desk.Chronicle
import Pinflow.Proofs.Desk.Sessions

/-!
# What a move does to one invocation

Of all moves only its own turn, a drop and a release change an invocation, and a stop or a
cancellation its token. `Move.onInvocation` says so once; whatever holds of an invocation
for good is read off it. `Beside` says what a move does to its session and to all else that
it will find when it goes on.
-/

namespace Pinflow

open Invocation Option

namespace Invocation

section

variable {invocation after : Invocation} {world world' : Surroundings} {q : Query}
  {deeds : List Deed}

theorem Replies.identity {answer : q.Answer}
    (reply : Replies invocation world q answer after world' deeds) :
    after.name = invocation.name ∧ after.identity = invocation.identity := by
  cases reply with
  | acts =>
    rw [noteCall_eq]
    exact ⟨rfl, rfl⟩
  | _ => exact ⟨rfl, rfl⟩

theorem Waits.identity {next : q.Answer → Run}
    (wait : Waits invocation world q next after world' deeds) :
    after.name = invocation.name ∧ after.identity = invocation.identity := by
  cases wait with
  | acts =>
    rw [noteCall_eq]
    exact ⟨rfl, rfl⟩
  | _ => exact ⟨rfl, rfl⟩

theorem Prompted.identity {run : Run}
    (prompted : Prompted invocation world after world' run deeds) :
    after.name = invocation.name ∧ after.identity = invocation.identity := by
  cases prompted <;> exact ⟨rfl, rfl⟩

end

/-- A drive changes neither the name of an invocation nor its ids. -/
theorem drive_identity (invocation : Invocation) (world : Surroundings) (run : Run) :
    (invocation.drive world run).1.name = invocation.name ∧
      (invocation.drive world run).1.identity = invocation.identity := by
  refine @drive_rule
    (fun going _ _ _ => going.name = invocation.name ∧ going.identity = invocation.identity)
    (fun left _ _ => left.name = invocation.name ∧ left.identity = invocation.identity)
    ?_ ?_ ?_ invocation world run [] ⟨rfl, rfl⟩
  · exact fun same reply => ⟨reply.identity.1.trans same.1, reply.identity.2.trans same.2⟩
  · exact fun same wait => ⟨wait.identity.1.trans same.1, wait.identity.2.trans same.2⟩
  · exact fun same => same

theorem wake_identity (invocation : Invocation) (world : Surroundings) :
    (invocation.wake world).1.name = invocation.name ∧
      (invocation.wake world).1.identity = invocation.identity := by
  rcases invocation.wake_cases world with ⟨wakes, -⟩ |
    ⟨going, world', run, deeds, prompted, wakes, -⟩
  · rw [wakes]
    exact ⟨rfl, rfl⟩
  · rw [wakes]
    obtain ⟨name, identity⟩ := going.drive_identity world' run
    exact ⟨name.trans prompted.identity.1, identity.trans prompted.identity.2⟩

theorem begin_identity (settings : EngineSettings) (world : Surroundings) (circuit : Circuit)
    (name : String) (identity : Identity) (request : Request) :
    (begin settings world circuit name identity request).1.name = name ∧
      (begin settings world circuit name identity request).1.identity = identity := by
  rw [begin_eq]
  split
  · exact drive_identity _ _ _
  · exact ⟨rfl, rfl⟩

/-- An invocation that rests until it is given something. -/
def Live (invocation : Invocation) : Prop :=
  match invocation.stage with
  | .paused _ _ _ _ _ | .waiting _ => True
  | .finished _ | .refused _ | .dropped => False

/-- Only an invocation that rests has something to go on with. -/
theorem Prompted.live {invocation after : Invocation} {world world' : Surroundings} {run : Run}
    {deeds : List Deed} (prompted : Prompted invocation world after world' run deeds) :
    invocation.Live := by
  rw [Live]
  cases prompted with
  | command paused => simp only [paused]
  | expired paused => simp only [paused]
  | answer waiting => simp only [waiting]

/-- There is nothing to go on with for an invocation that is over. -/
theorem wake_of_not_live {invocation : Invocation} (ended : ¬ invocation.Live)
    (world : Surroundings) : invocation.wake world = (invocation, world) := by
  obtain ⟨_, _, _, _, _, _, _, _, _, _, stage⟩ := invocation
  cases stage with
  | paused | waiting => exact absurd trivial ended
  | _ => rfl

end Invocation

namespace Desk

variable {desk : Desk} {name : String} {invocation : Invocation}

/-- How an invocation ended, if it has. -/
def status? (desk : Desk) (name : String) : Option OutcomeStatus :=
  match (desk.invocation? name).map stage with
  | some (.finished outcome) => some outcome.status
  | _ => none

/-- A change of invocations that keeps their names is found by name. -/
theorem invocation?_map {g : Invocation → Invocation} (names : ∀ i, (g i).name = i.name)
    (world : Surroundings) :
    { desk with invocations := desk.invocations.map g, world }.invocation? name =
      (desk.invocation? name).map g := by
  simp only [invocation?, List.find?_map]
  congr 2
  funext i
  exact congrArg (· == name) (names i)

section

variable {other : String} {f : Invocation → Invocation}

theorem invocation?_of_same (own : ∀ i, desk.invocation? other = some i → i = f i) :
    desk.invocation? name =
      (desk.invocation? name).map fun i => if other = i.name then f i else i := by
  cases found : desk.invocation? name with
  | none => rfl
  | some =>
    rw [map_some]
    split
    · rename_i named
      rw [← own _ (by rw [named, (mem_of_invocation? found).2, found])]
    · rfl

theorem invocation?_updateInvocation {g : Invocation → Invocation} (world : Surroundings)
    (names : ∀ i, i.name = other → (g i).name = other)
    (own : ∀ i, desk.invocation? other = some i → g i = f i) :
    { desk.updateInvocation other g with world }.invocation? name =
      (desk.invocation? name).map fun i => if other = i.name then f i else i := by
  have kept : ∀ i : Invocation, (if i.name == other then g i else i).name = i.name := by
    intro i
    split
    · rename_i same
      rw [names i (eq_of_beq same), eq_of_beq same]
    · rfl
  refine (invocation?_map kept world).trans (map_congr fun i found => ?_)
  by_cases same : other = i.name
  · rw [if_pos same, if_pos (by simp [same]), own]
    rw [same, (mem_of_invocation? found).2, found]
  · rw [if_neg same, if_neg (by simpa using Ne.symm same)]

end

end Desk

namespace Invocation

def drop (invocation : Invocation) : Invocation :=
  match invocation.stage with
  | .paused _ _ _ _ _ | .waiting _ => { invocation with stage := .dropped }
  | .finished _ | .refused _ | .dropped => invocation

def release (invocation : Invocation) (answer : Except Fault Value) : Invocation :=
  match invocation.owed with
  | .answer => { invocation with owed := .given answer }
  | .nothing | .given _ => invocation

end Invocation

namespace Desk

def Move.onInvocation (world : Surroundings) (invocation : Invocation) : Move → Invocation
  | .wake name => if name = invocation.name then (invocation.wake world).1 else invocation
  | .cancel name =>
    if name = invocation.name then { invocation with cancelled := true } else invocation
  | .drop name => if name = invocation.name then invocation.drop else invocation
  | .release name answer =>
    if name = invocation.name then invocation.release answer else invocation
  | .stop session =>
    if (world.debugger.session? session).isSome && invocation.session == some session then
      { invocation with cancelled := true }
    else invocation
  | .start _ _ _ _ | .advance _ | .edit _ | .resume _ _ | .watch _ => invocation

variable {desk : Desk} {name : String} {invocation : Invocation}

/-- Unless it admits somebody, a move changes those who are there and brings nobody else. -/
theorem invocation?_make_of_old {move : Move}
    (old : ∀ other identity circuit request, move = .start other identity circuit request →
      ¬ desk.admits other identity = true) :
    (desk.make move).invocation? name =
      (desk.invocation? name).map (move.onInvocation desk.world) := by
  cases move with
  | start =>
    rw [make, if_neg (old _ _ _ _ rfl)]
    exact (congrFun map_id_fun _).symm
  | wake other =>
    rw [make, Desk.wake]
    cases isFound : desk.invocation? other with
    | none => exact invocation?_of_same fun _ found => by cases isFound.symm.trans found
    | some waking =>
      refine invocation?_updateInvocation _ (fun _ _ => ?_) fun _ found => ?_
      · exact (waking.wake_identity desk.world).1.trans (mem_of_invocation? isFound).2
      · cases isFound.symm.trans found
        rfl
  | cancel => exact invocation?_updateInvocation desk.world (fun _ named => named) fun _ _ => rfl
  | drop other =>
    rw [make, Desk.drop]
    cases isFound : desk.invocation? other with
    | none => exact invocation?_of_same fun _ found => by cases isFound.symm.trans found
    | some dropping =>
      simp only
      cases stage : dropping.stage with
      | paused | waiting =>
        refine invocation?_updateInvocation _ (fun _ named => named) fun _ found => ?_
        cases isFound.symm.trans found
        simp only [Invocation.drop, stage]
      | _ =>
        refine invocation?_of_same fun _ found => ?_
        cases isFound.symm.trans found
        simp only [Invocation.drop, stage]
  | release other answer =>
    rw [make]
    cases isFound : desk.invocation? other with
    | none => exact invocation?_of_same fun _ found => by cases isFound.symm.trans found
    | some owing =>
      simp only [map_some]
      cases owed : owing.owed with
      | answer =>
        refine invocation?_updateInvocation desk.world (fun _ named => named) fun _ found => ?_
        cases isFound.symm.trans found
        simp only [Invocation.release, owed]
      | _ =>
        refine invocation?_of_same fun _ found => ?_
        cases isFound.symm.trans found
        simp only [Invocation.release, owed]
  | advance | edit | resume | watch => exact (congrFun map_id_fun _).symm
  | stop session =>
    simp only [make, Move.onInvocation, Debugger.stop]
    cases desk.world.debugger.session? session with
    | none => exact (congrFun map_id_fun _).symm
    | some =>
      refine invocation?_map (fun i => ?_) _
      split <;> rfl

theorem invocation?_make (found : desk.invocation? name = some invocation) (move : Move) :
    (desk.make move).invocation? name = some (move.onInvocation desk.world invocation) := by
  by_cases begins : ∃ other identity circuit request,
      move = .start other identity circuit request ∧ desk.admits other identity = true
  · obtain ⟨other, identity, circuit, request, rfl, admits⟩ := begins
    rw [make_start_of_admits admits, invocation?, List.find?_append]
    exact congrArg (Option.or · _) found
  · rw [invocation?_make_of_old, found, map_some]
    exact fun _ _ _ _ same admits => begins ⟨_, _, _, _, same, admits⟩

/-- What the turn of an invocation leaves behind. -/
theorem world_make_wake (found : desk.invocation? name = some invocation) :
    (desk.make (.wake name)).world = (invocation.wake desk.world).2 := by
  simp only [make, wake, found]

/-- Nobody is there under the name of an invocation that is admitted. -/
theorem invocation?_of_admits {identity : Identity} (admits : desk.admits name identity = true) :
    desk.invocation? name = none := by
  refine List.find?_eq_none.mpr fun other member => ?_
  simp only [Desk.admits, List.all_eq_true, Bool.and_eq_true] at admits
  simpa using (admits other member).1

theorem invocation?_join {identity : Identity} {new : Invocation}
    (admits : desk.admits name identity = true) (named : new.name = name) (other : String) :
    { desk with invocations := desk.invocations ++ [new] }.invocation? other =
      if other = name then some new else desk.invocation? other := by
  rw [invocation?, List.find?_append, ← invocation?]
  split
  · rename_i same
    rw [same, invocation?_of_admits admits]
    exact List.find?_cons_of_pos (p := fun other : Invocation => other.name == name)
      (beq_iff_eq.mpr named)
  · rename_i differs
    have nobody : [new].find? (fun someone : Invocation => someone.name == other) = none :=
      List.find?_cons_of_neg (p := fun someone : Invocation => someone.name == other)
        (by simpa [named] using Ne.symm differs)
    rw [nobody, Option.or_none]

/-- An invocation that has been admitted is found by its name. -/
theorem invocation?_make_start {identity : Identity} (admits : desk.admits name identity = true)
    (circuit : Circuit) (request : Request) :
    (desk.make (.start name identity circuit request)).invocation? name =
      some (begin desk.settings desk.world circuit name identity request).1 := by
  have joined := invocation?_join admits
    (begin_identity desk.settings desk.world circuit name identity request).1 name
  rw [if_pos rfl] at joined
  rw [make_start_of_admits admits]
  exact joined

/-- All that reaches an invocation that has no turn and is not dropped is a cancellation of
its token and an answer that it is owed. -/
theorem Move.onInvocation_eq (world : Surroundings) {move : Move}
    (turn : move ≠ .wake invocation.name) (drop : move ≠ .drop invocation.name) :
    ∃ cancelled owed, move.onInvocation world invocation = { invocation with cancelled, owed } ∧
      (invocation.cancelled = true → cancelled = true) := by
  cases move with
  | wake other =>
    have differs : other ≠ invocation.name := fun same => turn (congrArg Move.wake same)
    rw [onInvocation, if_neg differs]
    exact ⟨_, _, rfl, id⟩
  | cancel | stop =>
    rw [onInvocation]
    split
    · exact ⟨true, _, rfl, fun _ => rfl⟩
    · exact ⟨_, _, rfl, id⟩
  | drop other =>
    have differs : other ≠ invocation.name := fun same => drop (congrArg Move.drop same)
    rw [onInvocation, if_neg differs]
    exact ⟨_, _, rfl, id⟩
  | release =>
    rw [onInvocation, Invocation.release]
    split
    · split <;> exact ⟨_, _, rfl, id⟩
    · exact ⟨_, _, rfl, id⟩
  | _ => exact ⟨_, _, rfl, id⟩

theorem Move.onInvocation_stage_of_not_live (world : Surroundings) (ended : ¬ invocation.Live)
    (move : Move) : (move.onInvocation world invocation).stage = invocation.stage := by
  by_cases turn : move = .wake invocation.name
  · rw [turn, onInvocation, if_pos rfl, wake_of_not_live ended]
  · by_cases drop : move = .drop invocation.name
    · rw [drop, onInvocation, if_pos rfl, Invocation.drop]
      rw [Live] at ended
      split
      · rename_i stage
        simp only [stage] at ended
        exact absurd trivial ended
      · rename_i stage
        simp only [stage] at ended
        exact absurd trivial ended
      · rfl
      · rfl
      · rfl
    · obtain ⟨cancelled, owed, same, -⟩ := onInvocation_eq world turn drop
      rw [same]

/-- An invocation that is over stays as it ended. -/
theorem stage_of_not_live (found : desk.invocation? name = some invocation)
    (ended : ¬ invocation.Live) (moves : List Move) :
    ∃ after, (desk.play moves).invocation? name = some after ∧
      after.stage = invocation.stage := by
  induction moves generalizing desk invocation with
  | nil => exact ⟨invocation, found, rfl⟩
  | cons move moves ih =>
    have same := Move.onInvocation_stage_of_not_live desk.world ended move
    have still : ¬ (move.onInvocation desk.world invocation).Live := by
      rw [Live, same]
      exact ended
    obtain ⟨after, isAfter, kept⟩ := ih (invocation?_make found move) still
    exact ⟨after, isAfter, kept.trans same⟩

/-- What a move does to a session, if it is told something. -/
def Move.onSession (id : String) : Move → Session → Session
  | .resume other overrides, session => if other = id then (session.resume overrides).2 else session
  | .stop other, session => if other = id then session.stop else session
  | _, session => session

def Move.onBreakpoints (debugger : Debugger) : Move → Breakpoints
  | .edit change => (debugger.edit change).breakpoints
  | _ => debugger.breakpoints

def Move.time : Move → Nat
  | .advance milliseconds => milliseconds
  | _ => 0

/-- What a move leaves to an invocation that it does not let go on. -/
structure Beside (id : String) (move : Move) (world after : Surroundings) : Prop where
  session : after.debugger.session? id = (world.debugger.session? id).map (move.onSession id)
  breakpoints : after.debugger.breakpoints.bare = (move.onBreakpoints world.debugger).bare
  patience : after.debugger.patience = world.debugger.patience
  clock : after.clock = world.clock + move.time
  now : after.now = world.now
  nodup : world.debugger.ids.Nodup → after.debugger.ids.Nodup

section

variable {id : String} {world : Surroundings} {move : Move}
  (breakpoints : move.onBreakpoints world.debugger = world.debugger.breakpoints)
  (instant : move.time = 0)
include breakpoints instant

theorem Beside.refl
    (silent : ∀ session, world.debugger.session? id = some session →
      move.onSession id session = session) : Beside id move world world where
  session := by
    refine (congrFun map_id_fun _).symm.trans (map_congr fun session found => ?_)
    exact (silent session found).symm
  breakpoints := by rw [breakpoints]
  patience := rfl
  clock := by rw [instant, Nat.add_zero]
  now := rfl
  nodup nodup := nodup

/-- One session is told something. -/
theorem Beside.of_amended {other : String} {f : Session → Session} {debugger : Debugger}
    (amended : world.debugger.Amended other f debugger)
    (told : ∀ session, world.debugger.session? id = some session →
      move.onSession id session = if other = id then f session else session) :
    Beside id move world { world with debugger } where
  session := by
    have same : debugger.session? id = (world.debugger.session? id).map fun session =>
        if other = id then f session else session := by
      rw [amended.session?]
      split
      · rename_i same
        simp only [same, ↓reduceIte]
      · rename_i differs
        simp only [if_neg (Ne.symm differs)]
        exact (congrFun map_id_fun _).symm
    exact same.trans (map_congr fun session found => (told session found).symm)
  breakpoints := by rw [breakpoints, amended.breakpoints]
  patience := amended.patience
  clock := by rw [instant, Nat.add_zero]
  now := rfl
  nodup := amended.nodup

end

/-- A move with which nobody begins, has a turn or is dropped. -/
def Move.Outside : Move → Prop
  | .start _ _ _ _ | .wake _ | .drop _ => False
  | _ => True

/-- A move that no walk takes part in. Nobody drops a walk that is under way. -/
def Move.Aside (walks : String → Option Run) : Move → Prop
  | .drop name => walks name = none
  | move => move.Outside

theorem beside_make (desk : Desk) (id : String) (move : Move) (outside : move.Outside) :
    Beside id move desk.world (desk.make move).world := by
  cases move with
  | start | wake | drop => exact outside.elim
  | cancel => exact .refl rfl rfl fun _ _ => rfl
  | release =>
    rw [make]
    split <;> exact .refl rfl rfl fun _ _ => rfl
  | advance | watch => exact ⟨(congrFun map_id_fun _).symm, rfl, rfl, rfl, rfl, fun nodup => nodup⟩
  | edit edit =>
    obtain ⟨_, edited⟩ := desk.world.debugger.edit_eq edit
    refine ⟨?_, rfl, ?_, rfl, rfl, ?_⟩
    · exact (desk.world.debugger.session?_edit edit).trans (congrFun map_id_fun _).symm
    all_goals rw [make, edited]
    · rfl
    · exact fun nodup => nodup
  | resume session overrides =>
    cases found : desk.world.debugger.session? session with
    | none =>
      rw [make, desk.world.debugger.resume_of_none found]
      refine .refl rfl rfl fun other present => if_neg ?_
      rintro rfl
      cases found.symm.trans present
    | some =>
      refine .of_amended rfl rfl (desk.world.debugger.amended_resume found overrides) ?_
      intro other present
      rw [Move.onSession]
      by_cases same : session = id
      · subst same
        cases found.symm.trans present
        rfl
      · rw [if_neg same, if_neg same]
  | stop session =>
    rw [make]
    cases stopped : desk.world.debugger.stop session with
    | ok => exact .of_amended rfl rfl (desk.world.debugger.amended_stop stopped) fun _ _ => rfl
    | error =>
      refine .refl rfl rfl fun other present => if_neg ?_
      rintro rfl
      rw [Debugger.stop, present] at stopped
      cases stopped

end Desk

end Pinflow
