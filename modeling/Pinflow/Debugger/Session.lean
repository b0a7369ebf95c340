import Pinflow.Walk.Basic

/-!
# Debug sessions

A session belongs to one invocation and is opened when that invocation first hits a
breakpoint. While the invocation is paused, one command can be put on the session's
line. An invocation that is dropped while paused leaves its session behind with
nobody on the line.
-/

namespace Pinflow

inductive SessionStatus where
  | running
  | paused
  | completed
  | stopped
deriving DecidableEq

def SessionStatus.name : SessionStatus → String
  | running => "running"
  | paused => "paused"
  | completed => "completed"
  | stopped => "stopped"

/-- The line to a paused invocation: nobody asks for a command, the invocation waits
for one, a command has been given, or the invocation is gone. -/
inductive Line where
  | idle
  | waiting
  | given (command : Command)
  | abandoned

structure Session where
  id : String
  graph : String
  invocation : String
  status : SessionStatus := .running
  node : Option String := none
  snapshot : Option Value := none
  line : Line := .idle

namespace Session

def pause (session : Session) (node : String) (snapshot : Value) : Session :=
  { session with status := .paused, node := some node, snapshot := some snapshot, line := .waiting }

/-- The invocation has taken a command and goes on, or ends. -/
def proceed (session : Session) (command : Command) : Session :=
  let status := match command with
    | .resume _ => .running
    | .stop => .stopped
  { session with status, node := none, snapshot := none, line := .idle }

/-- The invocation is dropped. -/
def abandon (session : Session) : Session :=
  match session.line with
  | .waiting => { session with line := .abandoned }
  | _ => session

/-- The command that has been given, if the invocation waits for one. -/
def given? (session : Session) : Option Command :=
  match session.line with
  | .given command => some command
  | _ => none

/-- Tell a paused invocation to go on. With nobody on the line the session still
counts as running from now on. -/
def resume (session : Session) (overrides : List (String × Value)) :
    Except Refusal Unit × Session :=
  match session.line with
  | .waiting =>
    (.ok (), { session with
      status := .running, node := none, line := .given (.resume overrides) })
  | .abandoned =>
    (.error (.notWaiting session.id), { session with
      status := .running, node := none, line := .idle })
  | .idle | .given _ => (.error (.notPaused session.id), session)

/-- Tell an invocation to end, whether it is paused or not. -/
def stop (session : Session) : Session :=
  let line := match session.line with
    | .waiting => .given .stop
    | .given command => .given command
    | .idle | .abandoned => .idle
  { session with status := .stopped, line }

def toValue (session : Session) : Value :=
  let node := match session.node with
    | some node => .str node
    | none => .null
  .object [("id", .str session.id), ("graph_id", .str session.graph),
    ("invocation_id", .str session.invocation), ("status", .str session.status.name),
    ("paused_node", node), ("snapshot", session.snapshot.getD .null)]

end Session

end Pinflow
