import Pinflow.Kind
import Pinflow.Value.View

/-!
# Loops

Both loops run a body and then follow their `completed` pin once, whichever way the
body ended. A break that comes back from the body ends the loop and goes no further;
what comes back from `completed` is the signal of the loop.
-/

namespace Pinflow.Loop

def bodyPin : String := "loop_body"

def completedPin : String := "completed"

/-- Run the body for each item, counting from an index, until a break comes back. -/
def eachFrom (node : String) : Nat → List Value → Routine Unit
  | _, [] => return
  | index, item :: items => do
    Routine.reenter node bodyPin
    Routine.store node [("element", item), ("index", .ofNat index)]
    let signal ← Routine.traverse node bodyPin
    if signal.isBreak then return
    eachFrom node (index + 1) items

/-- Run the body once per item, in order. -/
def forEach (node : String) (items : List Value) : Routine Signal := do
  eachFrom node 0 items
  Routine.traverse node completedPin

/-- Run the body while the condition holds, at most `left` more times out of
`ceiling`. Reaching the ceiling leaves a note and is no fault. -/
def whileFrom (node : String) (ceiling : Nat) : (left : Nat) → Routine Unit
  | 0 => Routine.note node s!"while loop reached its iteration ceiling of {ceiling}"
  | left + 1 => do
    Routine.refresh node bodyPin
    let condition ← Routine.input node "condition"
    if condition.truthy then
      Routine.reenter node bodyPin
      Routine.store node [("iteration", .ofNat (ceiling - (left + 1)))]
      let signal ← Routine.traverse node bodyPin
      if signal.isBreak then return
      whileFrom node ceiling left

/-- Run the body while the condition holds, at most `ceiling` times. -/
def whileLoop (node : String) (ceiling : Nat) : Routine Signal := do
  whileFrom node ceiling ceiling
  Routine.traverse node completedPin

end Pinflow.Loop
