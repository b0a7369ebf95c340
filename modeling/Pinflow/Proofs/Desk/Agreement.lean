import Pinflow.Proofs.Desk.Beside
import Pinflow.Proofs.Walk.Matchings

/-!
# Surroundings that agree for one invocation

All that an invocation can tell of its surroundings is its own session, where the
breakpoints stop it, and the time. `Agree` is the sameness of these. What other invocations
leave behind in the surroundings, the counts of the breakpoints and with them what a pause
shows, is not part of it. One invocation that is driven in surroundings that agree comes to
the same end in both.
-/

namespace Pinflow

open Debugger Option

open Dialogue (Paired)
open Walk (lockstep)

/-- A session but for what its pause shows. -/
def Session.bare (session : Session) : Session := { session with snapshot := none }

theorem Session.eq_of_bare {session other : Session} (same : session.bare = other.bare) :
    ∃ snapshot, other = { session with snapshot } := by
  refine ⟨other.snapshot, ?_⟩
  have same := congrArg (fun bare => { bare with snapshot := other.snapshot }) same
  exact same.symm

structure Surroundings.Agree (id : String) (world other : Surroundings) : Prop where
  session : (world.debugger.session? id).map Session.bare =
    (other.debugger.session? id).map Session.bare
  breakpoints : world.debugger.breakpoints.bare = other.debugger.breakpoints.bare
  patience : world.debugger.patience = other.debugger.patience
  clock : world.clock = other.clock
  now : world.now = other.now

namespace Surroundings.Agree

variable {id : String} {world other : Surroundings}

theorem refl (world : Surroundings) : world.Agree id world := ⟨rfl, rfl, rfl, rfl, rfl⟩

theorem isSome_session? (agree : world.Agree id other) :
    (world.debugger.session? id).isSome = (other.debugger.session? id).isSome := by
  have same := congrArg Option.isSome agree.session
  rwa [isSome_map, isSome_map] at same

/-- The command that has been given does not depend on what the pause shows. -/
theorem given? (agree : world.Agree id other) :
    (world.debugger.session? id).bind Session.given? =
      (other.debugger.session? id).bind Session.given? := by
  have bare : ∀ session : Option Session, session.bind Session.given? =
      (session.map Session.bare).bind Session.given? := by
    intro session
    cases session <;> rfl
  rw [bare, agree.session, ← bare]

/-- Both sessions are told the same. -/
theorem session_map {f g : Session → Session} {session session' : Option Session}
    (same : session.map Session.bare = session'.map Session.bare)
    (keeps : ∀ s snapshot, (f s).bare = (g { s with snapshot }).bare) :
    (session.map f).map Session.bare = (session'.map g).map Session.bare := by
  cases session with
  | none =>
    cases session' with
    | none => rfl
    | some => cases same
  | some s =>
    cases session' with
    | none => cases same
    | some =>
      obtain ⟨snapshot, rfl⟩ := Session.eq_of_bare (Option.some.inj same)
      exact congrArg some (keeps s snapshot)

section

variable (agree : world.Agree id other)
include agree

/-- A change of the own session on both sides. -/
theorem amended {f g : Session → Session} {debugger debugger' : Debugger}
    (left : world.debugger.Amended id f debugger) (right : other.debugger.Amended id g debugger')
    (keeps : ∀ s snapshot, (f s).bare = (g { s with snapshot }).bare) :
    Agree id { world with debugger } { other with debugger := debugger' } where
  session := by
    rw [left.own, right.own]
    exact session_map agree.session keeps
  breakpoints := by rw [left.breakpoints, right.breakpoints, agree.breakpoints]
  patience := by rw [left.patience, right.patience, agree.patience]
  clock := agree.clock
  now := agree.now

/-- A visit is stopped in both or in neither. -/
theorem visit (graph node : String) (vars : Fields) :
    (world.debugger.visit graph node vars).1.isSome =
        (other.debugger.visit graph node vars).1.isSome ∧
      Agree id { world with debugger := (world.debugger.visit graph node vars).2 }
        { other with debugger := (other.debugger.visit graph node vars).2 } := by
  constructor
  · refine (Breakpoints.isSome_visit _ graph node vars).trans ?_
    rw [agree.breakpoints]
    exact (Breakpoints.isSome_visit _ graph node vars).symm
  · refine ⟨agree.session, ?_, agree.patience, agree.clock, agree.now⟩
    exact (Breakpoints.bare_visit _ graph node vars).trans
      (agree.breakpoints.trans (Breakpoints.bare_visit _ graph node vars).symm)

theorem isSome_beginPause (node : String) (snapshot snapshot' : Value) :
    (world.debugger.beginPause id node snapshot).isSome =
      (other.debugger.beginPause id node snapshot').isSome := by
  have bare : ∀ (debugger : Debugger) snapshot, (debugger.beginPause id node snapshot).isSome =
      ((debugger.session? id).map Session.bare).any (·.status != .stopped) := by
    intro debugger snapshot
    rw [Debugger.beginPause]
    cases debugger.session? id with
    | none => rfl
    | some =>
      simp only [map_some, any_some, Session.bare, bne]
      split <;> simp_all
  rw [bare, agree.session, ← bare]

theorem beginPause (node : String) (snapshot snapshot' : Value) :
    (world.debugger.beginPause id node snapshot = none ∧
        other.debugger.beginPause id node snapshot' = none) ∨
      ∃ debugger debugger', world.debugger.beginPause id node snapshot = some debugger ∧
        other.debugger.beginPause id node snapshot' = some debugger' ∧
        debugger.patience = debugger'.patience ∧
        Agree id { world with debugger } { other with debugger := debugger' } := by
  have both := agree.isSome_beginPause node snapshot snapshot'
  cases left : world.debugger.beginPause id node snapshot with
  | none =>
    rw [left] at both
    exact .inl ⟨rfl, isNone_iff_eq_none.mp (isSome_eq_false_iff.mp both.symm)⟩
  | some debugger =>
    rw [left] at both
    obtain ⟨debugger', right⟩ := isSome_iff_exists.mp both.symm
    have begun : Agree id { world with debugger } { other with debugger := debugger' } :=
      agree.amended (world.debugger.amended_beginPause left)
        (other.debugger.amended_beginPause right) fun _ _ => rfl
    exact .inr ⟨debugger, debugger', rfl, right, begun.patience, begun⟩

theorem endPause (command : Command) :
    Agree id { world with debugger := world.debugger.endPause id command }
      { other with debugger := other.debugger.endPause id command } :=
  agree.amended (world.debugger.amended_endPause command) (other.debugger.amended_endPause command)
    fun _ _ => rfl

theorem expire (invocation invocation' : Invocation) (node : String) :
    (invocation.expire world id node).2.Agree id (invocation'.expire other id node).2 :=
  agree.amended (world.debugger.amended_expire node) (other.debugger.amended_expire node)
    fun _ _ => rfl

theorem abandon : Agree id { world with debugger := world.debugger.abandon id }
      { other with debugger := other.debugger.abandon id } := by
  refine agree.amended world.debugger.amended_abandon other.debugger.amended_abandon ?_
  intro s snapshot
  obtain ⟨_, _, _, _, _, _, line⟩ := s
  cases line <;> rfl

theorem openSession (session : Session) :
    Agree id { world with debugger := world.debugger.openSession session }
      { other with debugger := other.debugger.openSession session } := by
  refine ⟨?_, agree.breakpoints, agree.patience, agree.clock, agree.now⟩
  change ((world.debugger.openSession session).session? id).map Session.bare =
    ((other.debugger.openSession session).session? id).map Session.bare
  have same := agree.session
  rw [session?_openSession, session?_openSession]
  cases left : world.debugger.session? id with
  | none =>
    have right : other.debugger.session? id = none := by simpa [left] using same.symm
    rw [right]
  | some =>
    rw [left, map_some] at same
    obtain ⟨found', right, bare⟩ := map_eq_some_iff.mp same.symm
    rw [right]
    exact congrArg some bare.symm

theorem closing (session : Option String) (result : Except Fault Unit)
    (archive archive' : Archive) :
    Agree id { world with archive, debugger := world.debugger.closing session result }
      { other with archive := archive', debugger := other.debugger.closing session result } := by
  cases session with
  | none => exact ⟨agree.session, agree.breakpoints, agree.patience, agree.clock, agree.now⟩
  | some session =>
    obtain ⟨_, _, -, left⟩ := world.debugger.closing_eq (some session) result
    obtain ⟨_, _, -, right⟩ := other.debugger.closing_eq (some session) result
    refine ⟨?_, ?_, ?_, agree.clock, agree.now⟩
    · change ((world.debugger.closeSession session result).session? id).map Session.bare =
        ((other.debugger.closeSession session result).session? id).map Session.bare
      rw [session?_closeSession, session?_closeSession]
      split
      · rfl
      · exact agree.session
    · simp only [left, right, agree.breakpoints]
    · simp only [left, right, agree.patience]

end

end Surroundings.Agree

inductive Stage.Abreast (id : String) : Stage → Stage → Prop
  | paused {node : String} {number number' : Nat} {deadline : Option Nat}
      {next next' : Command → Run}
      (together : ∀ command, Paired (lockstep id) Eq (next command) (next' command)) :
      Abreast id (.paused id node number deadline next) (.paused id node number' deadline next')
  | waiting {next next' : Except Fault Value → Run}
      (together : ∀ answer, Paired (lockstep id) Eq (next answer) (next' answer)) :
      Abreast id (.waiting next) (.waiting next')
  | finished (outcome : Outcome) : Abreast id (.finished outcome) (.finished outcome)
  | refused (fault : Fault) : Abreast id (.refused fault) (.refused fault)
  | dropped : Abreast id .dropped .dropped

/-- What can be seen of a stage: all but the number of a pause and what is left of the walk. -/
inductive Stage.View where
  | paused (session node : String) (deadline : Option Nat)
  | waiting
  | finished (outcome : Outcome)
  | refused (fault : Fault)
  | dropped

def Stage.view : Stage → Stage.View
  | .paused session node _ deadline _ => .paused session node deadline
  | .waiting _ => .waiting
  | .finished outcome => .finished outcome
  | .refused fault => .refused fault
  | .dropped => .dropped

theorem Stage.Abreast.view_eq {id : String} {stage other : Stage} (abreast : Abreast id stage other) :
    other.view = stage.view := by
  cases abreast <;> rfl

structure Abreast (left right : Invocation × Surroundings) : Prop where
  invocation : ∃ stage, right.1 = { left.1 with stage } ∧
    Stage.Abreast left.1.identity.session left.1.stage stage
  agree : left.2.Agree left.1.identity.session right.2

namespace Invocation

variable {id : String} {invocation : Invocation} {world other : Surroundings}

theorem finish_abreast (agree : world.Agree invocation.identity.session other) (stage : Stage)
    (result : Except Fault Unit) (walker : Walker) :
    Abreast (invocation.finish world result walker)
      ({ invocation with stage }.finish other result walker) := by
  obtain ⟨archive, finished⟩ := invocation.finish_eq world result walker
  obtain ⟨archive', finished'⟩ := { invocation with stage }.finish_eq other result walker
  have same : { invocation with stage }.outcome other.now result walker =
      invocation.outcome world.now result walker := by
    rw [agree.now]
    rfl
  rw [finished, finished', same]
  exact ⟨⟨_, rfl, .finished _⟩, agree.closing walker.session result archive archive'⟩

/-- Walks that keep together are driven to the same end. -/
theorem drive_abreast {run run' : Run}
    (paired : Paired (lockstep invocation.identity.session) Eq run run')
    (agree : world.Agree invocation.identity.session other) (stage : Stage) :
    Abreast (invocation.drive world run) ({ invocation with stage }.drive other run') := by
  generalize same : invocation.identity.session = id at paired
  induction paired generalizing invocation world other with
  | @done result _ ends =>
    obtain rfl : result = _ := ends
    exact finish_abreast agree stage result.1 result.2
  | apart asks => exact asks.elim
  | @together q r next next' asks rest ih =>
    subst same
    cases q with
    | isCancelled =>
      cases r with
      | isCancelled => exact ih _ _ rfl agree rfl
      | _ => exact asks.elim
    | visit node vars =>
      cases r with
      | visit =>
        obtain ⟨rfl, rfl⟩ : node = _ ∧ vars = _ := asks
        obtain ⟨hits, after⟩ := agree.visit invocation.graph node vars
        exact ih _ _ hits after rfl
      | _ => exact asks.elim
    | openSession =>
      cases r with
      | openSession => exact ih _ _ ⟨rfl, rfl⟩ (agree.openSession _) rfl
      | _ => exact asks.elim
    | pause session node snapshot =>
      cases r with
      | pause session' _ snapshot' =>
        obtain ⟨rfl, rfl, rfl⟩ : session = _ ∧ session' = _ ∧ node = _ := asks
        rw [drive, drive]
        rcases agree.beginPause node snapshot snapshot' with
          ⟨left, right⟩ | ⟨debugger, debugger', left, right, patience, after⟩
        · rw [left, right]
          exact ih _ _ rfl agree rfl
        · rw [left, right]
          have deadline : debugger.patience.map (other.clock + ·) =
              debugger.patience.map (world.clock + ·) := by rw [agree.clock]
          simp only [← patience, deadline]
          split
          · exact ih _ _ rfl (after.expire _ _ node) rfl
          · refine ⟨⟨_, rfl, .paused fun command => rest command command rfl⟩, ?_⟩
            exact ⟨after.session, after.breakpoints, after.patience, after.clock, after.now⟩
      | _ => exact asks.elim
    | act action payload =>
      cases r with
      | act =>
        obtain ⟨rfl, rfl⟩ : action = _ ∧ payload = _ := asks
        have noted : { invocation with stage }.noteCall action payload =
            { invocation.noteCall action payload with stage } := by
          rw [noteCall, noteCall]
          split <;> rfl
        have own : (invocation.noteCall action payload).identity = invocation.identity := by
          rw [invocation.noteCall_eq]
        rw [drive, drive, noted]
        cases (invocation.noteCall action payload).capability.reply action payload with
        | now =>
          refine ih _ _ rfl ?_ (congrArg Identity.session own)
          rw [own]
          exact agree
        | later =>
          refine ⟨⟨_, rfl, ?_⟩, ?_⟩
          · exact own ▸ .waiting fun answer => rest _ _ rfl
          · exact own ▸ agree
      | _ => exact asks.elim
    | ticket => exact asks.elim
    | announce moment =>
      cases r with
      | announce =>
        obtain rfl : moment = _ := asks
        exact ih _ _ trivial agree rfl
      | _ => exact asks.elim
    | exhausted =>
      cases r with
      | exhausted => exact ⟨⟨_, rfl, .dropped⟩, agree⟩
      | _ => exact asks.elim

/-- The same invocation gets its turn in surroundings that agree for it. -/
theorem wake_abreast {stage : Stage} (agree : world.Agree invocation.identity.session other)
    (abreast : Stage.Abreast invocation.identity.session invocation.stage stage) :
    Abreast (invocation.wake world) ({ invocation with stage }.wake other) := by
  obtain ⟨name, identity, graph, capability, started, recorder, calls, cancelled, session, owed,
    own⟩ := invocation
  have rests : Stage.Abreast identity.session own stage := abreast
  cases rests with
  | @paused node number number' deadline next next' together =>
    have passed : deadline.any (· ≤ other.clock) = deadline.any (· ≤ world.clock) := by
      rw [agree.clock]
    let going := obeying ⟨name, identity, graph, capability, started, recorder, calls, cancelled,
      session, owed, .paused identity.session node number deadline next⟩
    rw [wake, wake]
    simp only [← agree.given?, passed]
    cases (world.debugger.session? identity.session).bind Session.given? with
    | some command =>
      exact @drive_abreast (going command) _ _ _ _ (together command) (agree.endPause command) _
    | none =>
      simp only
      split
      · exact @drive_abreast (going .stop) _ _ _ _ (together .stop) (agree.expire _ _ node) _
      · exact ⟨⟨_, rfl, .paused together⟩, agree⟩
  | @waiting next next' together =>
    let going : Invocation := ⟨name, identity, graph, capability, started, recorder, calls,
      cancelled, session, .nothing, .waiting next⟩
    cases owed with
    | given answer => exact @drive_abreast going _ _ _ _ (together answer) agree _
    | nothing | answer => exact ⟨⟨_, rfl, .waiting together⟩, agree⟩
  | finished outcome => exact ⟨⟨_, rfl, .finished outcome⟩, agree⟩
  | refused fault => exact ⟨⟨_, rfl, .refused fault⟩, agree⟩
  | dropped => exact ⟨⟨_, rfl, .dropped⟩, agree⟩

/-- The same invocation begins in surroundings that agree for it. -/
theorem begin_abreast {circuit : Circuit} (wired : Circuit.Wired Registry.builtin circuit)
    {identity : Identity} (agree : world.Agree identity.session other)
    (settings : EngineSettings) (name : String) (request : Request) :
    Abreast (begin settings world circuit name identity request)
      (begin settings other circuit name identity request) := by
  have fresh' : fresh settings other circuit name identity request =
      fresh settings world circuit name identity request := by
    rw [fresh, fresh, agree.now]
  rw [begin_eq, begin_eq]
  split
  · rw [fresh']
    refine drive_abreast (Paired.mono (Walk.start_parallel Walk.lockstep_respects wired _ _ _
      ⟨rfl, fun _ member => absurd member (not_mem_none _)⟩) ?_) agree .dropped
    rintro ⟨result, walker⟩ ⟨result', walker'⟩ ⟨same, alike⟩
    exact Prod.ext same alike.eq
  · refine ⟨⟨_, ?_, .refused _⟩, agree⟩
    rw [rejected, rejected, fresh']

end Invocation

end Pinflow
