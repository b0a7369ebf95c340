import Pinflow.Context
import Pinflow.Dialogue
import Pinflow.Fault

/-!
# Scripts

What a node does is a script: a dialogue whose questions are calls on the walk that
runs the node. A script can pull inputs, follow exec pins, read and write the context,
read the memo and put outputs into it, and call the host's capability. It has no other
effect, so a statement about all scripts is one about all node kinds that keep to these
calls. A kind that drops entries of the memo on its own, or looks them up so that the
lookup is counted, is not among them.

A `Routine` is a script that may end in a fault; it may also recover from one.
-/

namespace Pinflow

/-- How a piece of control flow ended: done, or with a break on its way to a loop. -/
inductive Signal where
  | done
  | broken (origin : String)
deriving DecidableEq

def Signal.isBreak : Signal → Bool
  | .done => false
  | .broken _ => true

/-- What does not change during a walk. -/
structure About where
  graphId : String
  graphName : String
  size : Nat
  maxIterations : Nat
  capability : String

/-- What a script can ask of its walk. -/
inductive Call where
  | input (node pin : String)
  | resolve (node pin : String) (default : Value)
  | output (source : PinRef)
  | traverse (node pin : String)
  | run (node : String)
  | context
  | memo
  | about
  | inSession
  | isCancelled
  | assign (path : String) (value : Value)
  | persist (intent : Intent)
  | log (line : String)
  | note (node message : String)
  | store (node : String) (values : List (String × Value))
  | reenter (loop pin : String)
  | refresh (loop pin : String)
  | act (action : String) (payload : Value)
  | ticket

namespace Call

@[reducible] def Answer : Call → Type
  | input .. | resolve .. | output _ | act .. => Except Fault Value
  | traverse .. | run _ => Except Fault Signal
  | context => Context
  | memo => Memo
  | about => About
  | inSession | isCancelled => Bool
  | assign .. | persist _ | log _ | note .. | store .. | reenter .. | refresh .. => Unit
  | ticket => Nat

abbrev interface : Interface := ⟨Call, Answer⟩

end Call

/-- A dialogue with the walk. -/
abbrev Script := Dialogue Call.interface

abbrev Routine := ExceptT Fault Script

namespace Script

/-- Put one call. -/
def call (c : Call) : Script c.Answer := Dialogue.query (I := Call.interface) c

end Script

namespace Routine

/-- End with a fault of the given node. -/
def fail {α : Type} (node : String) (cause : Mishap) : Routine α :=
  throw (.evaluation node cause)

/-- The value of a data input, by wire, config or default. -/
def input (node pin : String) : Routine Value := ExceptT.mk (Script.call (.input node pin))

/-- The value of a data input with a default of the caller's. -/
def resolve (node pin : String) (default : Value) : Routine Value :=
  ExceptT.mk (Script.call (.resolve node pin default))

def output (source : PinRef) : Routine Value := ExceptT.mk (Script.call (.output source))

/-- Follow an exec output. -/
def traverse (node pin : String) : Routine Signal :=
  ExceptT.mk (Script.call (.traverse node pin))

/-- Run a node and whatever it leads to. -/
def run (node : String) : Routine Signal := ExceptT.mk (Script.call (.run node))

/-- Ask the host to act. The answer is data, also when it is a refusal. -/
def act (action : String) (payload : Value) : Routine (Except Fault Value) :=
  ExceptT.lift (Script.call (.act action payload))

def context : Routine Context := ExceptT.lift (Script.call .context)

def memo : Routine Memo := ExceptT.lift (Script.call .memo)

def about : Routine About := ExceptT.lift (Script.call .about)

def inSession : Routine Bool := ExceptT.lift (Script.call .inSession)

def isCancelled : Routine Bool := ExceptT.lift (Script.call .isCancelled)

/-- Write a variable. -/
def assign (path : String) (value : Value) : Routine Unit :=
  ExceptT.lift (Script.call (.assign path value))

/-- Ask for a value to be kept. -/
def persist (intent : Intent) : Routine Unit := ExceptT.lift (Script.call (.persist intent))

def log (line : String) : Routine Unit := ExceptT.lift (Script.call (.log line))

/-- Leave a remark in the trace. -/
def note (node message : String) : Routine Unit := ExceptT.lift (Script.call (.note node message))

/-- Put outputs of a node into the memo. -/
def store (node : String) (values : List (String × Value)) : Routine Unit :=
  ExceptT.lift (Script.call (.store node values))

/-- A loop is about to run its body again. -/
def reenter (loop pin : String) : Routine Unit := ExceptT.lift (Script.call (.reenter loop pin))

/-- A loop is about to look at its condition again. -/
def refresh (loop pin : String) : Routine Unit := ExceptT.lift (Script.call (.refresh loop pin))

/-- Draw the next number from the engine. -/
def ticket : Routine Nat := ExceptT.lift (Script.call .ticket)

def attempt {α : Type} (routine : Routine α) : Routine (Except Fault α) :=
  ExceptT.lift (ExceptT.run routine)

end Routine

end Pinflow
