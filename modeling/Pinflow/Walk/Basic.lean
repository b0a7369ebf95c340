import Pinflow.Circuit.Scope

/-!
# Walks

A walk is one run over a circuit, written as a dialogue with whatever surrounds it:
the debugger, which may pause it before a node; the token that may cancel it; and
the host, which acts for it. Everything that happens is announced together with the
state of the walk at that moment. Observers such as the trace recorder only listen,
so they cannot change the course of a walk.
-/

namespace Pinflow

/-- What a paused walk is told. -/
inductive Command where
  | resume (overrides : List (String × Value))
  | stop

/-- The state of a walk: its context, its memo, the nodes whose outputs are being
computed, innermost first, and its debug session once it has one. -/
structure Walker where
  context : Context
  memo : Memo := {}
  resolving : List String := []
  session : Option String := none

inductive Happening where
  /-- The evaluator of an output starts. -/
  | evaluating (source : PinRef) (config : Fields)
  /-- The evaluator of an output has returned. -/
  | evaluated (source : PinRef) (result : Except Fault Value)
  /-- The executor of a node starts. -/
  | executing (node : String)
  /-- The executor of a node has returned. -/
  | executed (node : String) (result : Except Fault Flow)
  /-- A data input got its value. -/
  | supplied (node pin : String) (value : Value)
  /-- A read of an output has returned: with a value from the memo or freshly computed,
  or without one. -/
  | read (source : PinRef) (result : Except Fault Value)
  /-- Control starts out from an exec output, wired or not. -/
  | traversing (source : PinRef)
  /-- Control passes along an edge. -/
  | followed (source target : PinRef)
  /-- Control has come back to an exec output. -/
  | traversed (source : PinRef) (result : Except Fault Signal)
  /-- A variable was written. -/
  | assigned (path : String) (value : Value)
  /-- A node put outputs of its own into the memo. -/
  | stored (node : String) (values : List (String × Value))
  /-- A loop starts its body again. -/
  | reentered (loop pin : String)
  /-- A loop looks at its condition again. -/
  | refreshed (loop pin : String)
  /-- A node left a remark. -/
  | noted (node message : String)

/-- A happening and the state of the walk right after it. -/
structure Moment where
  happening : Happening
  walker : Walker

/-- What a walk asks of its surroundings. -/
inductive Query where
  /-- Has the walk been cancelled? -/
  | isCancelled
  /-- Control is about to enter a node: does a breakpoint stop it there, and as which
  of its hits? -/
  | visit (node : String) (vars : Fields)
  /-- Open a debug session for this walk. -/
  | openSession
  /-- Wait for a command. -/
  | pause (session node : String) (snapshot : Value)
  /-- Let the host act. -/
  | act (action : String) (payload : Value)
  /-- Draw a number. -/
  | ticket
  /-- Tell the observers. -/
  | announce (moment : Moment)
  /-- The walk is nested deeper than its bound. Nothing answers this. -/
  | exhausted

namespace Query

@[reducible] def Answer : Query → Type
  | isCancelled => Bool
  | visit .. => Option Nat
  | openSession => String
  | pause .. => Command
  | act .. => Except Fault Value
  | ticket => Nat
  | announce _ => Unit
  | exhausted => Empty

abbrev interface : Interface := ⟨Query, Answer⟩

end Query

/-- A run that ends with a result. -/
abbrev Walk := Dialogue Query.interface

/-- What stays fixed during a walk. How much a pause shows is none of the nodes' business. -/
structure Setting where
  circuit : Circuit
  about : About
  invocation : String
  volatile : List String
  maxSnapshot : Nat

/-- The setting of a walk over a circuit. -/
def Setting.of (circuit : Circuit) (invocation capability : String)
    (maxIterations maxSnapshot : Nat) : Setting where
  circuit := circuit
  about := {
    graphId := circuit.id, graphName := circuit.name, size := circuit.parts.length
    maxIterations, capability }
  invocation := invocation
  volatile := circuit.volatileScope
  maxSnapshot := maxSnapshot

end Pinflow
