import Pinflow.Kinds.Control
import Pinflow.Value.Arithmetic
import Pinflow.Value.Comparison

/-!
# Data kinds

The kinds that compute values and those that read and write variables.
-/

namespace Pinflow.Kinds

def requiredName (config : Fields) (key kind : String) : Except Fault String :=
  match (config.get? key).bind Value.asString? with
  | some name => if name = "" then .error (.wiring (.needsName kind key)) else .ok name
  | none => .error (.wiring (.needsName kind key))

def maxArity : Nat := 16

/-- How many operands a node has. -/
def arity (config : Fields) (kind : String) : Except Fault Nat := do
  let n ← match config.get? "arity" with
    | none | some .null => .ok 2
    | some value =>
      match value.asNat? with
      | some n => .ok n
      | none => .error (.wiring (.arityNotNatural kind value))
  if n = 0 ∨ maxArity < n then .error (.wiring (.arityOutOfRange kind maxArity n)) else .ok n

def constant : Kind where
  id := "constant"
  description := "Outputs the literal `value` from its config."
  pins _ := .ok { outputs := [.output "value" .wildcard] }
  evaluate node _ := return (node.config.get? "value").getD .null

def getVariable : Kind where
  id := "get_variable"
  description := "Read a context variable."
  volatile := true
  pins config := do
    let _ ← requiredName config "name" "get_variable"
    .ok { inputs := [.input "default" .wildcard], outputs := [.output "value" .wildcard] }
  evaluate node pin := do
    if pin != "value" then .fail node.id (.noDataOutput pin)
    else
      let name ← requiredName node.config "name" "get_variable"
      match (← Routine.context).lookup? name with
      | some value => return value
      | none => Routine.input node.id "default"

/-- Writes a variable. -/
def setVariable : Kind where
  id := "set_variable"
  description := "Write a context variable for the rest of the invocation."
  pins config := do
    let _ ← requiredName config "name" "set_variable"
    .ok {
      inputs := [.execIn execIn, .input "value" .wildcard]
      outputs := [.execOut thenPin] }
  execute node := do
    let name ← requiredName node.config "name" "set_variable"
    let value ← Routine.input node.id "value"
    Routine.assign name value
    return .next thenPin

def persistVariable : Kind where
  id := "persist_variable"
  description := "Ask the host to persist a value beyond this invocation."
  pins config := do
    let _ ← requiredName config "key" "persist_variable"
    .ok {
      inputs := [.execIn execIn, .input "value" .wildcard]
      outputs := [.execOut thenPin] }
  execute node := do
    let key ← requiredName node.config "key" "persist_variable"
    let value ← Routine.input node.id "value"
    Routine.persist ⟨key, value, node.id⟩
    return .next thenPin

def mathOperator (config : Fields) : Except Fault Arithmetic :=
  let name := ((config.get? "operator").bind Value.asString?).getD "add"
  match Arithmetic.ofName? name with
  | some op => .ok op
  | none => .error (.wiring (.unknownMath name))

def operandPin (i : Nat) : String := s!"a{i}"

/-- Pull operands and fold them from left to right; the first one starts the fold. -/
def foldOperands (node : String) (op : Arithmetic) : Option Float → List Nat → Routine Float
  | result, [] => return result.getD 0.0
  | result, i :: rest => do
    let raw ← Routine.input node (operandPin i)
    match raw.toFloat? with
    | none => .fail node (.notANumber (operandPin i) raw)
    | some x =>
      match result with
      | none => foldOperands node op (some x) rest
      | some y =>
        match op.result? y x with
        | some z => foldOperands node op (some z) rest
        | none => .fail node .divisionByZero

def math : Kind where
  id := "math"
  description := "Arithmetic over a configurable number of operands."
  pins config := do
    let _ ← mathOperator config
    let n ← arity config "math"
    .ok {
      inputs := (List.range n).map fun (i : Nat) =>
        (Pin.input (operandPin i) .number).withDefault (.int 0)
      outputs := [.output "result" .number] }
  evaluate node pin := do
    if pin != "result" then .fail node.id (.noDataOutput pin)
    else
      let op ← mathOperator node.config
      let n ← arity node.config "math"
      let result ← foldOperands node.id op none (List.range n)
      match Value.ofFloat? result with
      | some value => return value
      | none => .fail node.id (.notFinite result)

def compareOperator (config : Fields) : Except Fault Comparison :=
  let name := ((config.get? "operator").bind Value.asString?).getD "=="
  match Comparison.ofName? name with
  | some op => .ok op
  | none => .error (.wiring (.unknownComparison name))

def compare : Kind where
  id := "compare"
  description := "Compare two values: == != > >= < <= contains."
  pins config := do
    let _ ← compareOperator config
    .ok {
      inputs := [.input "a" .wildcard, .input "b" .wildcard]
      outputs := [.output "result" .boolean] }
  evaluate node pin := do
    if pin != "result" then .fail node.id (.noDataOutput pin)
    else
      let op ← compareOperator node.config
      let a ← Routine.input node.id "a"
      let b ← Routine.input node.id "b"
      return .bool (op.apply a b)

def itemPin (i : Nat) : String := s!"item_{i}"

def makeArray : Kind where
  id := "make_array"
  description := "Collect `item_0..item_\x7barity-1\x7d` into an array."
  pins config := do
    let n ← arity config "make_array"
    .ok {
      inputs := (List.range n).map fun (i : Nat) => .input (itemPin i) .wildcard
      outputs := [.output "array" .array] }
  evaluate node pin := do
    if pin != "array" then .fail node.id (.noDataOutput pin)
    else
      let n ← arity node.config "make_array"
      let items ← (List.range n).mapM fun (i : Nat) => Routine.input node.id (itemPin i)
      return .arr items

end Pinflow.Kinds
