import Pinflow.Time
import Pinflow.Value.Basic

/-!
# Traces

The recorded history of one invocation: the executors and evaluators that ran and
the exec edges that were followed, in the order in which they began, and remarks.
-/

namespace Pinflow

inductive StepKind where
  | execution
  | evaluation
  | traversal
deriving DecidableEq

namespace StepKind

def name : StepKind → String
  | execution => "execution"
  | evaluation => "evaluation"
  | traversal => "traversal"

def ofName? : String → Option StepKind
  | "execution" => some execution
  | "evaluation" => some evaluation
  | "traversal" => some traversal
  | _ => none

end StepKind

structure Step where
  sequence : Nat
  node : String
  kind : StepKind
  pin : Option String := none
  inputs : Value
  outputs : Value := .null
  micros : Nat := 0
  error : Option String := none

/-- A remark, and the last step that had begun before it. -/
structure Note where
  after : Option Nat
  node : String
  message : String

inductive TraceStatus where
  | running
  | completed
  | error
deriving DecidableEq

namespace TraceStatus

def name : TraceStatus → String
  | running => "running"
  | completed => "completed"
  | error => "error"

/-- The status as a heading shows it. -/
def title : TraceStatus → String
  | running => "Running"
  | completed => "Completed"
  | error => "Error"

def ofName? : String → Option TraceStatus
  | "running" => some running
  | "completed" => some completed
  | "error" => some error
  | _ => none

end TraceStatus

structure Trace where
  id : String
  graph : String
  invocation : String
  started : Instant
  finished : Option Instant := none
  status : TraceStatus := .running
  error : Option String := none
  steps : List Step := []
  notes : List Note := []

namespace Trace

def isFinalized (trace : Trace) : Bool := trace.status != .running

/-- Which nodes took which kind of step, in order. -/
def sequence (trace : Trace) : List (String × StepKind) :=
  trace.steps.map fun step => (step.node, step.kind)

def stepsFor (trace : Trace) (node : String) (kind : StepKind) : List Step :=
  trace.steps.filter fun step => step.node == node && step.kind == kind

end Trace

end Pinflow
