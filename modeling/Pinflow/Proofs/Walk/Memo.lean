import Pinflow.Memo

/-!
# What a memo holds

What is found in a memo after each of the operations on it.
-/

namespace Pinflow

namespace Memo

variable (memo : Memo) (ref : PinRef)

@[simp] theorem get?_count (found : Bool) : (memo.count found).get? ref = memo.get? ref := by
  cases found <;> rfl

@[simp] theorem get?_lookup (source : PinRef) :
    (memo.lookup source).2.get? ref = memo.get? ref := get?_count memo ref _

/-- Of the entries kept by a filter, those of one reference are kept or go together. -/
theorem find?_filter_fst (entries : List (PinRef × Value)) (keep : PinRef → Bool) :
    (entries.filter fun entry => keep entry.1).find? (fun entry => entry.1 = ref) =
      if keep ref then entries.find? (fun entry => entry.1 = ref) else none := by
  induction entries with
  | nil => simp
  | cons entry entries ih =>
    by_cases same : entry.1 = ref
    · by_cases kept : keep ref
      · simp [same, kept]
      · simpa [same, kept] using ih
    · by_cases kept : keep entry.1
      · simpa [same, kept] using ih
      · simpa [same, kept] using ih

@[simp] theorem get?_store (source : PinRef) (value : Value) :
    (memo.store source value).get? ref = if ref = source then some value else memo.get? ref := by
  by_cases same : ref = source
  · simp [store, get?, same]
  · have other : source ≠ ref := fun eq => same eq.symm
    have rest := find?_filter_fst ref memo.entries (fun r => decide (r ≠ source))
    simp only [store, get?, List.find?_cons, other, decide_false, same, if_false]
    rw [rest]
    simp [same]

@[simp] theorem get?_invalidate (nodes : List String) :
    (memo.invalidate nodes).get? ref =
      if nodes.contains ref.node then none else memo.get? ref := by
  have rest := find?_filter_fst ref memo.entries (fun r => !nodes.contains r.node)
  simp only [invalidate, get?]
  rw [rest]
  cases nodes.contains ref.node <;> rfl

end Memo

end Pinflow
