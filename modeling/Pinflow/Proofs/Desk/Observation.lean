import Pinflow.Proofs.Desk.Transparency
import Pinflow.Proofs.Walk.Unwatched

/-!
# Observation does not change execution

`Desk.unwatched` is a desk that nobody watches: there is no archive and no trace, the channel is
empty, and pauses show nothing. Every move commutes with it, so what the invocations of a desk come
to can be read off the desk that nobody watches: it does not depend on traces, on what pauses show,
on the channel and its subscribers, or on the archive.
-/

namespace Pinflow

open Debugger List Option Surroundings

/-- A debugger that nobody listens to, with sessions that show nothing. -/
def Debugger.unwatched (debugger : Debugger) : Debugger :=
  { debugger with channel := .ofCapacity 0, sessions := debugger.sessions.map Session.bare }

namespace Debugger

variable (debugger : Debugger) (id : String)

theorem session?_unwatched :
    debugger.unwatched.session? id = (debugger.session? id).map Session.bare := by
  rw [session?, session?, unwatched, find?_map]
  rfl

/-- A change that comes to the same when nobody watches. -/
def Blind (f : Debugger → Debugger) : Prop :=
  ∀ debugger, (f debugger).unwatched = (f debugger.unwatched).unwatched

theorem unwatched_updateSession {f g : Session → Session}
    (same : ∀ session, (f session).bare = (g session.bare).bare) :
    (debugger.updateSession id f).unwatched = (debugger.unwatched.updateSession id g).unwatched := by
  simp only [updateSession, unwatched, List.map_map]
  congr 1
  refine map_congr_left fun session _ => ?_
  simp only [Function.comp_apply]
  have isId : session.bare.id = session.id := rfl
  rw [isId]
  split
  · exact same session
  · rfl

theorem unwatched_unwatched : debugger.unwatched.unwatched = debugger.unwatched := by
  simp only [unwatched, List.map_map]
  rfl

/-- A pause begins no matter what it shows. -/
theorem unwatched_beginPause (node : String) (snapshot other : Value) :
    (debugger.beginPause id node snapshot).map unwatched =
      (debugger.unwatched.beginPause id node other).map unwatched := by
  rw [beginPause, beginPause, session?_unwatched]
  cases debugger.session? id with
  | none => rfl
  | some session =>
    simp only [map_some]
    have status : session.bare.status = session.status := rfl
    rw [status]
    split
    · rfl
    · exact congrArg some (debugger.unwatched_updateSession id fun _ => rfl)

theorem unwatched_expirePause (node : String) :
    (debugger.expirePause id node).unwatched = debugger.unwatched := by
  rw [expirePause]
  split <;> rfl

theorem blind_endPause (command : Command) : Blind (·.endPause id command) :=
  fun debugger => debugger.unwatched_updateSession id fun _ => rfl

theorem blind_openSession (session : Session) : Blind (·.openSession session) := by
  intro debugger
  simp only [openSession, unwatched, map_append, List.map_map]
  rfl

theorem blind_closing (session : Option String) (result : Except Fault Unit) :
    Blind (·.closing session result) := by
  intro debugger
  cases session with
  | none => exact debugger.unwatched_unwatched.symm
  | some session =>
    simp only [closing, closeSession, session?_unwatched]
    cases debugger.session? session with
    | none => exact debugger.unwatched_unwatched.symm
    | some =>
      simp only [map_some, unwatched, publish, List.filter_map, List.map_map]
      rfl

theorem unwatched_breakpoints (breakpoints : Breakpoints) :
    Debugger.unwatched { debugger with breakpoints } =
      Debugger.unwatched { debugger.unwatched with breakpoints } :=
  congrArg (fun d : Debugger => { d with breakpoints }) debugger.unwatched_unwatched.symm

theorem blind_visit (graph node : String) (vars : Fields) :
    Blind fun debugger => (debugger.visit graph node vars).2 :=
  fun debugger => debugger.unwatched_breakpoints _

end Debugger

/-- Surroundings where nobody watches and nothing is kept. -/
def Surroundings.unwatched (world : Surroundings) : Surroundings :=
  { world with debugger := world.debugger.unwatched, archive := .none, now := ⟨0, 0, 0⟩ }

/-- Settings under which nothing is shown and nothing is traced. -/
def EngineSettings.unwatched (settings : EngineSettings) : EngineSettings :=
  { settings with maxSnapshot := 0, traceByDefault := false }

def Request.untraced (request : Request) : Request := { request with traced := none }

def Outcome.untraced (outcome : Outcome) : Outcome := { outcome with trace := none }

def Stage.unwatched : Stage → Stage
  | .paused session node number deadline next =>
    .paused session node number deadline fun command => Walk.unwatched (next command)
  | .waiting next => .waiting fun answer => Walk.unwatched (next answer)
  | .finished outcome => .finished outcome.untraced
  | .refused fault => .refused fault
  | .dropped => .dropped

def Invocation.unwatched (invocation : Invocation) : Invocation :=
  { invocation with recorder := none, started := ⟨0, 0, 0⟩, stage := invocation.stage.unwatched }

theorem Surroundings.unwatched_unwatched (world : Surroundings) :
    world.unwatched.unwatched = world.unwatched :=
  congrArg (fun debugger => { world.unwatched with debugger }) world.debugger.unwatched_unwatched

theorem Stage.unwatched_unwatched (stage : Stage) : stage.unwatched.unwatched = stage.unwatched := by
  cases stage with
  | paused session node number deadline next =>
    exact congrArg (paused session node number deadline)
      (funext fun command => Walk.unwatched_unwatched (next command))
  | waiting next =>
    exact congrArg waiting (funext fun answer => Walk.unwatched_unwatched (next answer))
  | finished => rfl
  | refused => rfl
  | dropped => rfl

structure SameUnwatched (left right : Invocation × Surroundings) : Prop where
  invocation : left.1.unwatched = right.1.unwatched
  world : left.2.unwatched = right.2.unwatched

namespace Surroundings

variable {world other : Surroundings}

section

variable (same : world.unwatched = other.unwatched)
include same

/-- What comes of the debugger is all that comes of the surroundings. -/
theorem unwatched_congr {debugger debugger' : Debugger}
    (after : debugger.unwatched = debugger'.unwatched) :
    Surroundings.unwatched { world with debugger } =
      Surroundings.unwatched { other with debugger := debugger' } := by
  have unchanged := congrArg (fun w : Surroundings => { w with debugger := debugger.unwatched }) same
  refine unchanged.trans ?_
  rw [after]
  rfl

theorem unwatched_onDebugger {f : Debugger → Debugger} (blind : Blind f) :
    Surroundings.unwatched { world with debugger := f world.debugger } =
      Surroundings.unwatched { other with debugger := f other.debugger } := by
  have debuggers : world.debugger.unwatched = other.debugger.unwatched :=
    congrArg debugger same
  apply unwatched_congr same
  rw [blind, debuggers, ← blind]

end

end Surroundings

namespace Invocation

variable {invocation other : Invocation} {world world' : Surroundings}

section

variable (same : invocation.unwatched = other.unwatched)
  (worlds : world.unwatched = world'.unwatched)
include same worlds

theorem finish_unwatched (result : Except Fault Unit) (walker : Walker) :
    SameUnwatched (invocation.finish world result walker) (other.finish world' result walker) := by
  obtain ⟨archive, finished⟩ := invocation.finish_eq world result walker
  obtain ⟨archive', finished'⟩ := other.finish_eq world' result walker
  rw [finished, finished']
  constructor
  · exact congrArg (fun i : Invocation => { i with
      stage := .finished (invocation.outcome world.now result walker).untraced }) same
  · exact unwatched_onDebugger worlds (blind_closing walker.session result)

theorem expire_unwatched (session node : String) :
    SameUnwatched (invocation.expire world session node) (other.expire world' session node) := by
  constructor
  · exact congrArg (fun i : Invocation => { i with cancelled := true }) same
  · have blind : Blind fun debugger =>
        (debugger.expirePause session node).endPause session .stop := by
      intro debugger
      have expired := blind_endPause session .stop
      rw [expired, expired (debugger.unwatched.expirePause session node),
        unwatched_expirePause, unwatched_expirePause,
        Debugger.unwatched_unwatched]
    exact unwatched_onDebugger worlds blind

end

theorem noteCall_unwatched (invocation : Invocation) (action : String) (payload : Value) :
    (invocation.noteCall action payload).unwatched =
      invocation.unwatched.noteCall action payload := by
  rw [noteCall, noteCall]
  have capability : invocation.unwatched.capability = invocation.capability := rfl
  rw [capability]
  split <;> rfl

section

variable (same : invocation.unwatched = other.unwatched)
include same

/-- The stage is the same if nobody watches. -/
theorem unwatched_stage {stage stage' : Stage} (stages : stage.unwatched = stage'.unwatched) :
    Invocation.unwatched { invocation with stage } =
      Invocation.unwatched { other with stage := stage' } := by
  have unchanged := congrArg (fun i : Invocation => { i with stage := stage.unwatched }) same
  refine unchanged.trans ?_
  rw [stages]
  rfl

theorem openSession_unwatched (worlds : world.unwatched = world'.unwatched) :
    SameUnwatched (invocation.openSession world) (other.openSession world') := by
  constructor
  · exact congrArg (fun i : Invocation => { i with session := some i.identity.session }) same
  · have own := congrArg (fun i : Invocation =>
      (⟨i.identity.session, i.graph, i.identity.invocation, .running, none, none, .idle⟩ : Session))
      same
    refine (unwatched_onDebugger worlds (blind_openSession _)).trans ?_
    exact congrArg (fun session => Surroundings.unwatched { world' with
      debugger := world'.debugger.openSession session }) own

/-- Both wait for a command. -/
theorem paused_unwatched {next next' : Command → Run}
    (worlds : world.unwatched = world'.unwatched) (session node : String)
    (rests : ∀ command, Walk.unwatched (next command) = Walk.unwatched (next' command)) :
    SameUnwatched
      ({ invocation with
          stage := .paused session node world.pauses
            (world.debugger.patience.map (world.clock + ·)) next },
        { world with pauses := world.pauses + 1 })
      ({ other with
          stage := .paused session node world'.pauses
            (world'.debugger.patience.map (world'.clock + ·)) next' },
        { world' with pauses := world'.pauses + 1 }) := by
  constructor
  · have clock : world.clock = world'.clock := (congrArg clock worlds :)
    have pauses : world.pauses = world'.pauses := (congrArg pauses worlds :)
    have patience : world.debugger.patience = world'.debugger.patience :=
      (congrArg (·.debugger.patience) worlds :)
    apply unwatched_stage same
    simp only [Stage.unwatched, clock, pauses, patience, rests]
  · exact congrArg (fun w : Surroundings => { w with pauses := w.pauses + 1 }) worlds

end

/-- An invocation is driven to the same, whatever its walk shows and whoever watches. -/
theorem drive_unwatched (run : Run) (same : invocation.unwatched = other.unwatched)
    (worlds : world.unwatched = world'.unwatched) :
    SameUnwatched (invocation.drive world run) (other.drive world' (Walk.unwatched run)) := by
  induction run generalizing invocation other world world' with
  | done result => exact finish_unwatched same worlds result.1 result.2
  | ask q next ih =>
    have graph : invocation.graph = other.graph := (congrArg Invocation.graph same :)
    cases q with
    | isCancelled =>
      have cancelled : invocation.cancelled = other.cancelled :=
        (congrArg Invocation.cancelled same :)
      simp only [drive, Walk.unwatched, cancelled]
      exact ih _ same worlds
    | visit node vars =>
      have hit : (world.debugger.visit invocation.graph node vars).1 =
          (world'.debugger.visit invocation.graph node vars).1 :=
        (congrArg (fun w : Surroundings =>
          (w.debugger.visit invocation.graph node vars).1) worlds :)
      simp only [drive, Walk.unwatched, ← graph, hit]
      exact ih _ same (unwatched_onDebugger worlds (blind_visit _ _ _))
    | openSession =>
      have opened := openSession_unwatched same worlds
      have id : invocation.identity.session = other.identity.session :=
        (congrArg (·.identity.session) same :)
      simp only [drive, Walk.unwatched]
      exact id ▸ ih _ opened.invocation opened.world
    | pause session node snapshot =>
      simp only [drive, Walk.unwatched]
      have begun : (world.debugger.beginPause session node snapshot).map Debugger.unwatched =
          (world'.debugger.beginPause session node .null).map Debugger.unwatched := by
        have debuggers : world.debugger.unwatched = world'.debugger.unwatched :=
          congrArg debugger worlds
        rw [Debugger.unwatched_beginPause _ session node snapshot .null, debuggers,
          ← Debugger.unwatched_beginPause]
      cases left : world.debugger.beginPause session node snapshot with
      | none =>
        rw [left] at begun
        rw [map_eq_none_iff.mp begun.symm]
        exact ih _ same worlds
      | some debugger =>
        rw [left] at begun
        obtain ⟨debugger', right, after⟩ := map_eq_some_iff.mp begun.symm
        have begun := unwatched_congr worlds after.symm
        have patience : debugger.patience = debugger'.patience :=
          (congrArg patience after.symm :)
        rw [right]
        by_cases impatient : debugger.patience = some 0
        · have expired := expire_unwatched same begun session node
          simp only [if_pos impatient, if_pos (patience ▸ impatient)]
          exact ih _ expired.invocation expired.world
        · have impatient' : debugger'.patience ≠ some 0 := patience ▸ impatient
          simp only [if_neg impatient, if_neg impatient']
          exact paused_unwatched same begun session node fun command =>
            (Walk.unwatched_unwatched (next command)).symm
    | act action payload =>
      have noted : (invocation.noteCall action payload).unwatched =
          (other.noteCall action payload).unwatched := by
        rw [noteCall_unwatched, same, ← noteCall_unwatched]
      have replies : (invocation.noteCall action payload).capability.reply action payload =
          (other.noteCall action payload).capability.reply action payload :=
        (congrArg (·.capability.reply action payload) noted :)
      simp only [drive, Walk.unwatched, replies]
      cases (other.noteCall action payload).capability.reply action payload with
      | now answer => exact ih answer noted worlds
      | later =>
        have owes : Invocation.unwatched { invocation.noteCall action payload with owed := .answer } =
            Invocation.unwatched { other.noteCall action payload with owed := .answer } :=
          congrArg (fun i : Invocation => { i with owed := .answer }) noted
        exact ⟨unwatched_stage owes (Stage.waiting next).unwatched_unwatched.symm, worlds⟩
    | ticket =>
      have drawn : world.drawn = world'.drawn := (congrArg drawn worlds :)
      simp only [drive, Walk.unwatched, drawn]
      exact ih _ same (congrArg (fun w : Surroundings => { w with drawn := world'.drawn + 1 }) worlds)
    | announce =>
      exact ih () same worlds
    | exhausted =>
      exact ⟨congrArg (fun i : Invocation => { i with stage := .dropped }) same, worlds⟩

/-- Walks that differ in what they show are driven to the same. -/
theorem drive_same {run run' : Run} (same : invocation.unwatched = other.unwatched)
    (worlds : world.unwatched = world'.unwatched)
    (runs : Walk.unwatched run = Walk.unwatched run') :
    SameUnwatched (invocation.drive world run) (other.drive world' run') := by
  have left := drive_unwatched run same worlds
  have right := drive_unwatched run' (rfl : other.unwatched = other.unwatched)
    (rfl : world'.unwatched = world'.unwatched)
  rw [← runs] at right
  exact ⟨left.invocation.trans right.invocation.symm, left.world.trans right.world.symm⟩

theorem unwatched_unwatched (invocation : Invocation) :
    invocation.unwatched.unwatched = invocation.unwatched :=
  congrArg (fun stage => { invocation.unwatched with stage }) invocation.stage.unwatched_unwatched

/-- An invocation begins alike when nobody watches. -/
theorem begin_unwatched (settings : EngineSettings) (world : Surroundings) (circuit : Circuit)
    (name : String) (identity : Identity) (request : Request) :
    SameUnwatched (begin settings world circuit name identity request)
      (begin settings.unwatched world.unwatched circuit name identity request.untraced) := by
  rw [begin_eq, begin_eq]
  have worlds := world.unwatched_unwatched.symm
  have entry : request.untraced.entry = request.entry := rfl
  rw [entry]
  split
  · exact drive_same rfl worlds (Walk.start_unwatched _ _ _ _)
  · exact ⟨rfl, worlds⟩

end Invocation

namespace Desk

/-- A desk that nobody watches. -/
def unwatched (desk : Desk) : Desk where
  settings := desk.settings.unwatched
  world := desk.world.unwatched
  invocations := desk.invocations.map Invocation.unwatched

def Move.unwatched : Move → Move
  | .start name identity circuit request => .start name identity circuit request.untraced
  | .watch _ => .watch id
  | move => move

variable (desk : Desk) {name : String}

/-- A desk that nobody watches is made of its parts. -/
theorem unwatched_ext {desk other : Desk}
    (settings : desk.settings.unwatched = other.settings.unwatched)
    (world : desk.world.unwatched = other.world.unwatched)
    (invocations : desk.invocations.map Invocation.unwatched =
      other.invocations.map Invocation.unwatched) : desk.unwatched = other.unwatched := by
  simp only [unwatched, settings, world, invocations]

theorem map_unwatched (invocations : List Invocation) :
    (invocations.map Invocation.unwatched).map Invocation.unwatched =
      invocations.map Invocation.unwatched := by
  rw [List.map_map]
  exact map_congr_left fun invocation _ => invocation.unwatched_unwatched

theorem unwatched_unwatched : desk.unwatched.unwatched = desk.unwatched :=
  unwatched_ext rfl desk.world.unwatched_unwatched (map_unwatched _)

theorem start_unwatched (identity : Identity) (circuit : Circuit) (request : Request) :
    (desk.start name identity circuit request).unwatched =
      (desk.unwatched.start name identity circuit request.untraced).unwatched := by
  have begun := Invocation.begin_unwatched desk.settings desk.world circuit name identity request
  refine unwatched_ext rfl begun.world ?_
  have others : ((desk.unwatched.invocations.filter fun other => other.name != name).map
      Invocation.unwatched) =
      (desk.invocations.filter fun other => other.name != name).map Invocation.unwatched := by
    rw [unwatched, List.filter_map]
    exact map_unwatched _
  simp only [start, map_append, map_singleton]
  rw [others]
  exact congrArg (fun invocation => _ ++ [invocation]) begun.invocation

variable {desk}

end Desk

end Pinflow
