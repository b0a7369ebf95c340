import Pinflow.Graph.Basic
import Pinflow.Graph.Pin
import Pinflow.Json.Printer

/-!
# Faults

Everything that can go wrong, by cause. `Fault.message` is the only place where a
cause becomes text.
-/

namespace Pinflow

/-- Why a graph cannot be wired up. -/
inductive Miswiring where
  | duplicateNode (id : String)
  | missingSource (node : String)
  | missingTarget (node : String)
  | noOutputPin (ref : PinRef)
  | noInputPin (ref : PinRef)
  | typeMismatch (source : PinRef) (sourceType : PinType) (target : PinRef) (targetType : PinType)
  | execWiredTwice (source : PinRef)
  | dataWiredTwice (target : PinRef)
  | pinsFailed (node reason : String)
  | notInGraph (node graph : String)
  | noEntry (node graph : String)
  | needsName (kind key : String)
  | countNotNatural (got : Value)
  | countOutOfRange (most got : Nat)
  | arityNotNatural (kind : String) (got : Value)
  | arityOutOfRange (kind : String) (most got : Nat)
  | unknownMath (operator : String)
  | unknownComparison (operator : String)
  | unreadable
  | stated (text : String)

namespace Miswiring

def message : Miswiring → String
  | duplicateNode id => s!"duplicate node id '{id}'"
  | missingSource node => s!"edge source node '{node}' does not exist"
  | missingTarget node => s!"edge target node '{node}' does not exist"
  | noOutputPin ref => "no output pin " ++ ref.text
  | noInputPin ref => "no input pin " ++ ref.text
  | typeMismatch source sourceType target targetType =>
    source.text ++ " (" ++ sourceType.name ++ ") cannot feed " ++ target.text ++ " (" ++
      targetType.name ++ ")"
  | execWiredTwice source => "exec output " ++ source.text ++ " is wired more than once"
  | dataWiredTwice target => "data input " ++ target.text ++ " has more than one incoming edge"
  | pinsFailed node reason => s!"node '{node}': {reason}"
  | notInGraph node graph => s!"node '{node}' not in graph '{graph}'"
  | noEntry node graph => s!"entry node '{node}' not in graph '{graph}'"
  | needsName kind key => s!"{kind} needs a '{key}' string in its config"
  | countNotNatural got => "sequence count must be a positive integer, got " ++ got.render
  | countOutOfRange most got => s!"sequence count must be between 1 and {most}, got {got}"
  | arityNotNatural kind got => kind ++ " arity must be an integer, got " ++ got.render
  | arityOutOfRange kind most got => s!"{kind} arity must be between 1 and {most}, got {got}"
  | unknownMath operator => s!"unknown math operator '{operator}'"
  | unknownComparison operator => s!"unknown compare operator '{operator}'"
  | unreadable => "<json>"
  | stated text => text

end Miswiring

/-- Why a node could not do its work. -/
inductive Mishap where
  | noInputPin (pin : String)
  | noDataOutput (pin : String)
  | noExecOutput (pin : String)
  | kindHasNoOutput (kind pin : String)
  | kindNotExecutable (kind : String)
  | onlyInsideLoop (pin : String)
  | onlyAfterAction (pin : String)
  | notAnArray (got : Value)
  | notAnAction (got : Value)
  | notANumber (pin : String) (got : Value)
  | divisionByZero
  | notFinite (result : Float)
  | noCapability (action : String)
  | noAnswer (action : String)
  | refused
  | unknownAction (name : String)
  | stated (text : String)

/-- A float that is no number, or none that is finite. -/
def nonFiniteText (x : Float) : String :=
  if x.isNaN then "NaN" else if x < 0.0 then "-inf" else "inf"

namespace Mishap

def message : Mishap → String
  | noInputPin pin => s!"no input pin '{pin}'"
  | noDataOutput pin => s!"no data output '{pin}'"
  | noExecOutput pin => s!"no exec output pin '{pin}'"
  | kindHasNoOutput kind pin => s!"node kind '{kind}' has no data output '{pin}'"
  | kindNotExecutable kind => s!"node kind '{kind}' cannot be executed"
  | onlyInsideLoop pin => s!"'{pin}' is only available inside the loop body"
  | onlyAfterAction pin => s!"'{pin}' is produced when the action runs"
  | notAnArray got => "expected an array, got " ++ got.render
  | notAnAction got => "action must be a string, got " ++ got.render
  | notANumber pin got => s!"operand {pin} is not a number: " ++ got.render
  | divisionByZero => "division by zero"
  | notFinite result => "result " ++ nonFiniteText result ++ " is not a finite number"
  | noCapability action => s!"no capability available for action '{action}'"
  | noAnswer action => s!"no answer for '{action}'"
  | refused => "refused"
  | unknownAction name => s!"probe: unknown action '{name}'"
  | stated text => text

end Mishap

/-- Why the debugger refused a command. -/
inductive Refusal where
  | unparseable (condition : String)
  | noSession (session : String)
  | notPaused (session : String)
  | notWaiting (session : String)
  | stated (text : String)

namespace Refusal

def message : Refusal → String
  | unparseable condition => "unparseable breakpoint condition: " ++ condition
  | noSession session => "no session " ++ session
  | notPaused session => s!"session {session} is not paused"
  | notWaiting session => s!"session {session} is no longer waiting"
  | stated text => text

end Refusal

/-- Everything that can go wrong. -/
inductive Fault where
  | unknownKind (kind : String)
  | wiring (cause : Miswiring)
  | evaluation (node : String) (cause : Mishap)
  | missingInput (node pin : String)
  | cycle (node path : String)
  | breakOutsideLoop (node : String)
  | stopped (session : String)
  | debug (cause : Refusal)
  | archive (text : String)
  | settings (text : String)
  | noSettings (path : String)
  | io (text : String)
  | json (text : String)

namespace Fault

def message : Fault → String
  | unknownKind kind => "Unknown node type: " ++ kind
  | wiring cause => "Invalid wiring: " ++ cause.message
  | evaluation node cause => s!"Evaluation failed at node {node}: " ++ cause.message
  | missingInput node pin => s!"Required input {pin} on node {node} is not connected and has no value"
  | cycle node path => s!"Cyclic data dependency at node {node}: {path}"
  | breakOutsideLoop node => s!"Break signal raised by node {node} outside of any loop"
  | stopped session => s!"Invocation stopped by debugger (session {session})"
  | debug cause => "Debug error: " ++ cause.message
  | archive text => "Trace store error: " ++ text
  | settings text => "Config error: " ++ text
  | noSettings path => "Config file not found: " ++ path
  | io text => "I/O error: " ++ text
  | json text => "JSON error: " ++ text

/-- A fault of the graph itself, found before anything runs. -/
def isConfiguration : Fault → Bool
  | unknownKind _ | wiring _ => true
  | _ => false

/-- A fault of a node at work. A break that no loop takes counts here. -/
def isEvaluation : Fault → Bool
  | evaluation .. | missingInput .. | breakOutsideLoop _ => true
  | _ => false

def node? : Fault → Option String
  | evaluation node _ | missingInput node _ | cycle node _ | breakOutsideLoop node => some node
  | _ => none

end Fault

end Pinflow
