import Pinflow.Desk.Drive

/-!
# The desk

A desk runs any number of invocations side by side, with one debugger for all. It
works in rounds: after each operation every invocation goes on as far as it can.
-/

namespace Pinflow

/-- The settings, the graphs at hand by id, what the invocations share, and the
invocations in the order in which they began. -/
structure Desk where
  settings : EngineSettings := {}
  circuits : List Circuit := []
  world : Surroundings
  invocations : List Invocation := []

namespace Desk

def ofSettings (settings : EngineSettings) (debug : DebugSettings) (archive : Archive) (now : Instant) :
    Desk where
  settings := settings
  world := {
    debugger := {
      channel := .ofCapacity debug.eventCapacity
      patience := debug.pauseTimeout.map (· * 1000) }
    archive, now }

def circuit? (desk : Desk) (graph : String) : Option Circuit :=
  desk.circuits.find? fun circuit => circuit.id == graph

def addCircuit (desk : Desk) (circuit : Circuit) : Desk :=
  { desk with circuits := circuit :: desk.circuits.filter fun other => other.id != circuit.id }

def invocation? (desk : Desk) (name : String) : Option Invocation :=
  desk.invocations.find? fun invocation => invocation.name == name

/-- Change an invocation. -/
def updateInvocation (desk : Desk) (name : String) (f : Invocation → Invocation) : Desk :=
  { desk with
    invocations := desk.invocations.map fun invocation =>
      if invocation.name == name then f invocation else invocation }

/-- Change the debugger. -/
def withDebugger (desk : Desk) (debugger : Debugger) : Desk :=
  { desk with world := { desk.world with debugger } }

def wake (desk : Desk) (name : String) : Desk :=
  match desk.invocation? name with
  | none => desk
  | some invocation =>
    let (invocation, world) := invocation.wake desk.world
    { desk.updateInvocation name fun _ => invocation with world }

/-- The invocations in the order in which they get their turn: first those that are not
paused, then the paused ones, longest pause first. -/
def turns (desk : Desk) : List String :=
  let turn (invocation : Invocation) : Nat :=
    match invocation.stage with
    | .paused _ _ number _ _ => number + 1
    | _ => 0
  (desk.invocations.mergeSort fun a b => turn a ≤ turn b).map Invocation.name

/-- Let every invocation go on as far as it can. -/
def settle (desk : Desk) : Desk := desk.turns.foldl wake desk

def start (desk : Desk) (name : String) (identity : Identity) (circuit : Circuit)
    (request : Request) : Desk :=
  let (invocation, world) := Invocation.begin desk.settings desk.world circuit name identity request
  let others := desk.invocations.filter fun other => other.name != name
  { desk with invocations := others ++ [invocation], world }

def resume (desk : Desk) (session : String) (overrides : List (String × Value)) :
    Except Fault Unit × Desk :=
  let (result, debugger) := desk.world.debugger.resume session overrides
  (result, (desk.withDebugger debugger).settle)

def cancelSession (desk : Desk) (session : String) : Desk :=
  { desk with
    invocations := desk.invocations.map fun invocation =>
      if invocation.session == some session then { invocation with cancelled := true }
      else invocation }

def stop (desk : Desk) (session : String) : Except Fault Unit × Desk :=
  match desk.world.debugger.stop session with
  | .ok debugger => (.ok (), ((desk.withDebugger debugger).cancelSession session).settle)
  | .error fault => (.error fault, desk)

/-- Cancel the token of an invocation. A paused invocation stays paused. -/
def cancel (desk : Desk) (name : String) : Desk :=
  (desk.updateInvocation name fun invocation => { invocation with cancelled := true }).settle

/-- Drop an invocation where it stands. Its session stays behind. -/
def drop (desk : Desk) (name : String) : Desk :=
  match desk.invocation? name with
  | none => desk
  | some invocation =>
    let dropped := desk.updateInvocation name fun invocation => { invocation with stage := .dropped }
    match invocation.stage with
    | .paused session .. => dropped.withDebugger (desk.world.debugger.abandon session)
    | .waiting .. => dropped
    | .finished _ | .refused _ | .dropped => desk

/-- Answer the action whose answer is owed to an invocation; say whether there is one.
The answer to an invocation that was dropped goes nowhere. -/
def release (desk : Desk) (name : String) (answer : Except Fault Value) : Bool × Desk :=
  match (desk.invocation? name).map Invocation.owed with
  | some .answer =>
    (true, (desk.updateInvocation name fun invocation =>
      { invocation with owed := .given answer }).settle)
  | _ => (false, desk)

/-- Let time pass. -/
def advance (desk : Desk) (milliseconds : Nat) : Desk :=
  { desk with world := { desk.world with clock := desk.world.clock + milliseconds } }.settle

end Desk

end Pinflow
