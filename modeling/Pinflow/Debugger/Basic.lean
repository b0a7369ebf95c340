import Pinflow.Debugger.Breakpoint
import Pinflow.Debugger.Session
import Pinflow.Event.Channel

/-!
# The debugger

Breakpoints, live sessions and the channel on which they are reported. All of it is
shared by the invocations of an engine; what one invocation does to its session
leaves the others alone.
-/

namespace Pinflow

/-- The state of the debugger. `patience` is how many milliseconds a paused
invocation waits for a command before it is stopped. -/
structure Debugger where
  channel : Channel
  breakpoints : Breakpoints := []
  sessions : List Session := []
  patience : Option Nat := none

namespace Debugger

def setBreakpoint (debugger : Debugger) (graph node : String) (condition : Option String) :
    Except Fault Debugger := do
  let condition ← condition.mapM Condition.parse
  return { debugger with breakpoints := debugger.breakpoints.set { graph, node, condition } }

/-- Take a breakpoint away; say whether there was one. -/
def removeBreakpoint (debugger : Debugger) (graph node : String) : Bool × Debugger :=
  ((debugger.breakpoints.find? graph node).isSome,
    { debugger with breakpoints := debugger.breakpoints.remove graph node })

/-- Switch a breakpoint on or off; say whether there is one. Its count stays. -/
def setEnabled (debugger : Debugger) (graph node : String) (enabled : Bool) : Bool × Debugger :=
  ((debugger.breakpoints.find? graph node).isSome,
    { debugger with
      breakpoints := debugger.breakpoints.update graph node fun breakpoint =>
        { breakpoint with enabled } })

/-- Control is about to enter a node. -/
def visit (debugger : Debugger) (graph node : String) (vars : Fields) :
    Option Nat × Debugger :=
  let (hit, breakpoints) := debugger.breakpoints.visit graph node vars
  (hit, { debugger with breakpoints })

def session? (debugger : Debugger) (id : String) : Option Session :=
  debugger.sessions.find? fun session => session.id == id

/-- Change a session. -/
def updateSession (debugger : Debugger) (id : String) (f : Session → Session) : Debugger :=
  { debugger with
    sessions := debugger.sessions.map fun session => if session.id == id then f session else session }

/-- Tell those who watch. -/
def publish (debugger : Debugger) (event : Event) : Debugger :=
  { debugger with channel := debugger.channel.publish event }

def openSession (debugger : Debugger) (session : Session) : Debugger :=
  { debugger with sessions := debugger.sessions ++ [session] }

/-- An invocation wants to pause. A session that is gone or stopped does not let it:
it has to end. -/
def beginPause (debugger : Debugger) (id node : String) (snapshot : Value) : Option Debugger :=
  match debugger.session? id with
  | none => none
  | some session =>
    if session.status == .stopped then none
    else
      some ((debugger.updateSession id (·.pause node snapshot)).publish
        ⟨id, session.graph, .paused session.invocation node snapshot⟩)

/-- How long a number of milliseconds is, in the largest unit that leaves one. -/
def durationText (milliseconds : Nat) : String :=
  if milliseconds = 0 then "0ns"
  else if milliseconds < 1000 then s!"{milliseconds}ms"
  else
    let digits := Nat.toDigits 10 (1000 + milliseconds % 1000)
    let fraction := ((digits.drop 1).reverse.dropWhile (· == '0')).reverse
    let fraction := if fraction.isEmpty then [] else '.' :: fraction
    s!"{milliseconds / 1000}" ++ String.ofList fraction ++ "s"

/-- A pause has lasted too long. -/
def expirePause (debugger : Debugger) (id node : String) : Debugger :=
  match debugger.session? id, debugger.patience with
  | some session, some patience =>
    debugger.publish ⟨id, session.graph,
      .error (s!"paused at {node} for longer than " ++ durationText patience)⟩
  | _, _ => debugger

/-- A paused invocation takes a command. -/
def endPause (debugger : Debugger) (id : String) (command : Command) : Debugger :=
  debugger.updateSession id (·.proceed command)

/-- A paused invocation is dropped. -/
def abandon (debugger : Debugger) (id : String) : Debugger :=
  debugger.updateSession id Session.abandon

/-- Tell the invocation of a session to go on, with new values for some variables. -/
def resume (debugger : Debugger) (id : String) (overrides : List (String × Value)) :
    Except Fault Unit × Debugger :=
  match debugger.session? id with
  | none => (.error (.debug (.noSession id)), debugger)
  | some session =>
    let (result, session) := session.resume overrides
    let debugger := debugger.updateSession id fun _ => session
    match result with
    | .ok () => (.ok (), debugger.publish ⟨id, session.graph, .resumed⟩)
    | .error refusal => (.error (.debug refusal), debugger)

/-- Tell the invocation of a session to end. -/
def stop (debugger : Debugger) (id : String) : Except Fault Debugger :=
  match debugger.session? id with
  | none => .error (.debug (.noSession id))
  | some _ => .ok (debugger.updateSession id Session.stop)

/-- The news that ends a session. -/
def closingNews : Except Fault Unit → News
  | .ok () => .completed
  | .error (.stopped _) => .stopped
  | .error fault => .error fault.message

/-- Close a session when its invocation has ended. -/
def closeSession (debugger : Debugger) (id : String) (result : Except Fault Unit) : Debugger :=
  match debugger.session? id with
  | none => debugger
  | some session =>
    { debugger with sessions := debugger.sessions.filter fun other => other.id != id }.publish
      ⟨id, session.graph, closingNews result⟩

/-- A live session whose id begins with the given text. -/
def findSession? (debugger : Debugger) (start : String) : Option Session :=
  debugger.sessions.find? fun session => start.toList.isPrefixOf session.id.toList

/-- The live sessions by increasing id. -/
def sortedSessions (debugger : Debugger) : List Session :=
  debugger.sessions.mergeSort fun a b => a.id ≤ b.id

end Debugger

end Pinflow
