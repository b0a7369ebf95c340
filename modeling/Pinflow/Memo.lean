import Pinflow.Graph.Basic

/-!
# Memo

The data outputs already computed in a run, by node and pin, with counts of the
lookups that found a value and of those that did not.
-/

namespace Pinflow

/-- Outputs remembered during a run. Every reference occurs at most once. -/
structure Memo where
  entries : List (PinRef × Value) := []
  hits : Nat := 0
  misses : Nat := 0

namespace Memo

/-- Look without counting. -/
def get? (memo : Memo) (ref : PinRef) : Option Value :=
  (memo.entries.find? fun entry => entry.1 = ref).map Prod.snd

def contains (memo : Memo) (ref : PinRef) : Bool := (memo.get? ref).isSome

/-- Count a lookup. -/
def count (memo : Memo) (found : Bool) : Memo :=
  if found then { memo with hits := memo.hits + 1 } else { memo with misses := memo.misses + 1 }

/-- Look and count. -/
def lookup (memo : Memo) (ref : PinRef) : Option Value × Memo :=
  let found := memo.get? ref
  (found, memo.count found.isSome)

/-- Remember a value in place of any earlier one. -/
def store (memo : Memo) (ref : PinRef) (value : Value) : Memo :=
  { memo with entries := (ref, value) :: memo.entries.filter fun entry => entry.1 ≠ ref }

/-- Remember several outputs of one node. -/
def storeMany (memo : Memo) (node : String) (values : List (String × Value)) : Memo :=
  values.foldl (fun memo (pin, value) => memo.store ⟨node, pin⟩ value) memo

/-- Forget every output of the given nodes. -/
def invalidate (memo : Memo) (nodes : List String) : Memo :=
  { memo with entries := memo.entries.filter fun entry => !nodes.contains entry.1.node }

/-- Forget everything. The counts go on. -/
def clear (memo : Memo) : Memo := { memo with entries := [] }

def size (memo : Memo) : Nat := memo.entries.length

/-- The entries as an object over `node.pin`. -/
def toFields (memo : Memo) : Fields :=
  Fields.ofList (memo.entries.reverse.map fun entry => (entry.1.text, entry.2))

end Memo

end Pinflow
