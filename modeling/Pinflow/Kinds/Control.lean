import Pinflow.Kinds.Loop

/-!
# Control kinds

The kinds that decide where control goes: the entry point, branches, sequences,
loops and breaks.
-/

namespace Pinflow.Kinds

/-- Exec input of every kind that control can enter. -/
def execIn : String := "exec"

/-- Exec output of kinds with a single way on. -/
def thenPin : String := "then"

/-- The entry point. With an `event` in its config it lets only that event pass. -/
def onEvent : Kind where
  id := "on_event"
  description := "Entry point of an invocation; outputs its arguments and event tag."
  pins _ := .ok {
    outputs := [.execOut thenPin, .output "args" .wildcard, .output "event" .string] }
  evaluate node pin := do
    match pin with
    | "args" => return (← Routine.context).args
    | "event" => return (← Routine.context).eventValue
    | other => .fail node.id (.noDataOutput other)
  execute node := do
    match node.configString? "event" with
    | none => return .next thenPin
    | some wanted =>
      let context ← Routine.context
      return if context.event == some wanted then .next thenPin else .finish

/-- Goes one of two ways. -/
def branch : Kind where
  id := "branch"
  description := "Continue on `true` or `false` depending on the condition."
  pins _ := .ok {
    inputs := [.execIn execIn, (Pin.input "condition" .boolean).withDefault (.bool false)]
    outputs := [.execOut "true", .execOut "false"] }
  execute node := do
    let condition ← Routine.input node.id "condition"
    return .next (if condition.truthy then "true" else "false")

def maxSequence : Nat := 64

/-- How many ways a sequence goes. -/
def sequenceCount (config : Fields) : Except Fault Nat := do
  let count ← match config.get? "count" with
    | none | some .null => .ok 2
    | some value =>
      match value.asNat? with
      | some n => .ok n
      | none => .error (.wiring (.countNotNatural value))
  if count = 0 ∨ maxSequence < count then .error (.wiring (.countOutOfRange maxSequence count))
  else .ok count

def sequencePin (i : Nat) : String := s!"then_{i}"

/-- Follow the pins of a sequence in order until a break comes back. -/
def followAll (node : String) : List Nat → Routine Signal
  | [] => return .done
  | i :: rest => do
    let signal ← Routine.traverse node (sequencePin i)
    if signal.isBreak then return signal
    followAll node rest

/-- Goes several ways, one after the other. -/
def sequence : Kind where
  id := "sequence"
  description := "Fire several exec outputs one after another."
  pins config := do
    let count ← sequenceCount config
    .ok {
      inputs := [.execIn execIn]
      outputs := (List.range count).map fun (i : Nat) => .execOut (sequencePin i) }
  execute node := do
    let count ← sequenceCount node.config
    let signal ← followAll node.id (List.range count)
    return .forward signal

def forEach : Kind where
  id := "for_each"
  description := "Run the loop body once per array element, then `completed`."
  pins _ := .ok {
    inputs := [.execIn execIn, (Pin.input "array" .array).withDefault (.arr [])]
    outputs := [.execOut Loop.bodyPin, .output "element" .wildcard, .output "index" .number,
      .execOut Loop.completedPin] }
  evaluate node pin := .fail node.id (.onlyInsideLoop pin)
  execute node := do
    let array ← Routine.input node.id "array"
    let items ← match array with
      | .arr items => pure items
      | .null => pure []
      | other => .fail node.id (.notAnArray other)
    let signal ← Loop.forEach node.id items
    return .forward signal

def whileLoop : Kind where
  id := "while_loop"
  description := "Run the loop body while the condition holds, bounded by an iteration ceiling."
  pins _ := .ok {
    inputs := [.execIn execIn, (Pin.input "condition" .boolean).withDefault (.bool false)]
    outputs := [.execOut Loop.bodyPin, .output "iteration" .number, .execOut Loop.completedPin] }
  evaluate node pin := .fail node.id (.onlyInsideLoop pin)
  execute node := do
    let most := (← Routine.about).maxIterations
    let ceiling := match node.configNat? "max_iterations" with
      | some n => min n most
      | none => most
    let signal ← Loop.whileLoop node.id ceiling
    return .forward signal

def breakLoop : Kind where
  id := "break_loop"
  description := "Stop the nearest enclosing loop."
  pins _ := .ok { inputs := [.execIn execIn] }
  execute _ := return .break

end Pinflow.Kinds
