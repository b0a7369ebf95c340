import Pinflow.Archive.Basic
import Pinflow.Capability
import Pinflow.Debugger.Basic
import Pinflow.Settings.Basic
import Pinflow.Trace.Recorder
import Pinflow.Walk.Serve

/-!
# Invocations

A request to run a graph becomes an invocation: a walk together with what it shares
with no other walk. An invocation runs until it ends, pauses at a breakpoint or
waits for the host; what is left of its walk is kept until it can go on.
-/

namespace Pinflow

/-- A request to run a graph from an entry node. -/
structure Request where
  entry : String
  args : Value := .obj []
  event : Option String := none
  /-- Whether to record a trace; otherwise the settings decide. -/
  traced : Option Bool := none
  capability : Capability := .none
  /-- The token of the request has been cancelled beforehand. -/
  cancelled : Bool := false

/-- The ids that an invocation goes by. -/
structure Identity where
  invocation : String
  session : String
  trace : String

/-- What an invocation leaves behind. -/
structure Outcome where
  fault : Option Fault
  vars : Fields
  intents : List Intent
  lines : List String
  trace : Option Trace

inductive OutcomeStatus where
  | completed
  | failed
  | stopped
deriving DecidableEq

namespace OutcomeStatus

def name : OutcomeStatus → String
  | completed => "completed"
  | failed => "failed"
  | stopped => "stopped"

/-- The status as a heading shows it. -/
def title : OutcomeStatus → String
  | completed => "Completed"
  | failed => "Failed"
  | stopped => "Stopped"

end OutcomeStatus

/-- How an invocation ended. One that was stopped has not failed. -/
def Outcome.status (outcome : Outcome) : OutcomeStatus :=
  match outcome.fault with
  | none => .completed
  | some (.stopped _) => .stopped
  | some _ => .failed

/-- The walk of an invocation: it ends with a result and the state it reached. -/
abbrev Run := Walk (Except Fault Unit × Walker)

/-- Where an invocation stands. -/
inductive Stage where
  /-- It waits for a command, until the deadline if there is one. Pauses are numbered. -/
  | paused (session node : String) (number : Nat) (deadline : Option Nat) (next : Command → Run)
  /-- It waits for the answer to an action. -/
  | waiting (next : Except Fault Value → Run)
  | finished (outcome : Outcome)
  /-- It could not begin. -/
  | refused (fault : Fault)
  /-- It was dropped. -/
  | dropped

/-- What has become of the action that the host answers later: there is none, its
answer is owed, or it has been given. -/
inductive Owed where
  | nothing
  | answer
  | given (answer : Except Fault Value)

/-- An invocation of a graph. The actions it put to the host stand in reverse. -/
structure Invocation where
  name : String
  identity : Identity
  graph : String
  capability : Capability
  started : Instant
  recorder : Option Recorder := none
  callsRev : List (String × Value) := []
  cancelled : Bool := false
  session : Option String := none
  owed : Owed := .nothing
  stage : Stage

namespace Invocation

def traceHead (invocation : Invocation) : Trace where
  id := invocation.identity.trace
  graph := invocation.graph
  invocation := invocation.identity.invocation
  started := invocation.started

end Invocation

/-- What invocations share: the debugger, the archive, the clock in milliseconds, the
date, the numbers that nodes draw, and how many pauses there have been. -/
structure Surroundings where
  debugger : Debugger
  archive : Archive := .none
  clock : Nat := 0
  now : Instant
  drawn : Nat := 0
  pauses : Nat := 0

namespace Surroundings

def keep (world : Surroundings) (trace : Trace) : Surroundings :=
  match world.archive.persist trace with
  | .ok archive => { world with archive }
  | .error _ => world

end Surroundings

end Pinflow
