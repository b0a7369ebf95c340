import Mathlib.Data.List.TakeWhile
import Pinflow.Proofs.Json.Rereading
import Pinflow.Proofs.Value.Shape

/-!
# Values through text

The text of a value is read as the value's own tree, `Value.raw_read?_render`, and an ordered
value is held by its tree unless it nests too deep, `Raw.value?_ofValue`. An integer of 64
bits is what its numeral denotes. For floats that is a matter of how decimals are rounded, so
it is asked of the floats that occur, see `Rereads`.
-/

namespace Pinflow

open List

namespace Decimal

variable {fields : List (String × Value)} {v : Value} {items : List Value} {n : Nat}

theorem head?_digitChars_ne (positive : 0 < n) : (digitChars n).head? ≠ some '0' := by
  induction n using Nat.strongRecOn with
  | ind n ih =>
    rw [digitChars]
    by_cases small : n < 10
    · rw [Nat.toDigits_of_lt_base small]
      intro zero
      exact Nat.ne_of_gt positive (Nat.digitChar_eq_zero.mp (Option.some.inj zero))
    · have shorter := ih (n / 10) (by omega) (by omega)
      rw [Nat.toDigits_of_base_le (by decide) (by omega), head?_append,
        Option.or_of_isSome (isSome_head?.mpr Nat.toDigits_ne_nil)]
      exact shorter

/-- Only the digit zero begins with a zero. -/
theorem digitChars_plain (long : 1 < (digitChars n).length) : (digitChars n).head? ≠ some '0' := by
  refine head?_digitChars_ne (Nat.pos_of_ne_zero ?_)
  rintro rfl
  exact absurd long (by decide)

end Decimal

namespace Json

namespace Literal

theorem natOfDigits_digitChars (n : Nat) : natOfDigits (Decimal.digitChars n) = n := by
  have sameStep : (fun n c => n * 10 + digitValue c) =
      fun (sofar : Nat) (c : Char) => 10 * sofar + (c.toNat - '0'.toNat) := by
    funext n c
    rw [digitValue, Nat.mul_comm]
  rw [natOfDigits, sameStep, ← Nat.ofDigitChars_eq_foldl]
  exact Nat.ofDigitChars_ten_toDigits

/-- Digits without a superfluous zero are an integer literal. -/
theorem ofChars?_whole {cs : List Char} (digits : ∀ c ∈ cs, c.isDigit = true) (some : cs ≠ [])
    (plain : 1 < cs.length → cs.head? ≠ .some '0') :
    ofChars? cs = .some ⟨false, cs, none, none⟩ ∧
      ofChars? ('-' :: cs) = .some ⟨true, cs, none, none⟩ := by
  have taken : cs.takeWhile Char.isDigit = cs := takeWhile_eq_self_iff.mpr digits
  have rest : cs.dropWhile Char.isDigit = [] := by
    rw [dropWhile_eq_nil_iff]
    exact digits
  have whole : digits? cs = .some cs := if_pos ⟨some, all_eq_true.mpr digits⟩
  have alone : ¬ (1 < cs.length ∧ cs.head? = .some '0') := by
    rintro ⟨long, zero⟩
    exact plain long zero
  have unsigned : ∀ rest, cs ≠ '-' :: rest := by
    rintro rest rfl
    exact absurd (digits '-' mem_cons_self) (by decide)
  constructor
  · rw [ofChars?]
    · simp [taken, rest, whole, alone]
    · exact unsigned
  · simp [ofChars?, taken, rest, whole, alone]

theorem ofNumeral?_intOnto {i : Int} (fits : Value.Fits i) :
    Raw.ofNumeral? (intOnto i []) = some (.number (some (.int i))) := by
  have literal : ∀ n, _ := fun n =>
    ofChars?_whole (@isDigit_digitChars n) Nat.toDigits_ne_nil Decimal.digitChars_plain
  cases i with
  | ofNat n =>
    have small : n < unsignedBound := Int.ofNat_lt.mp fits.2
    rw [Raw.ofNumeral?, intOnto, append_nil, (literal n).1]
    simp [number?, natOfDigits_digitChars, small]
  | negSucc n =>
    have small : n + 1 ≤ signedBound := by
      have low := fits.1
      omega
    rw [Raw.ofNumeral?, intOnto, append_nil, (literal (n + 1)).2]
    simp only [number?, natOfDigits_digitChars, Option.map_some, Option.isNone_none, and_self,
      if_true, Nat.succ_pos, small]
    rfl

end Literal

/-- The text of a float is read as the float. -/
def Rereads (x : Float) : Prop := Raw.ofNumeral? (layout.float x) = some (.number (some (.float x)))

namespace Raw

mutual

/-- An ordered value is held by its tree down to the depth that is read. -/
theorem value?_ofValue (ordered : v.Ordered) (depth : Nat) :
    (ofValue v).value? depth = if v.depth ≤ depth then some v else none := by
  cases v with
  | arr =>
    cases ordered with
    | arr all =>
      cases depth with
      | zero => rfl
      | succ depth =>
        rw [ofValue, value?, values?_ofValues all depth, Value.depth]
        simp only [Nat.add_le_add_iff_right]
        split <;> rfl
  | obj =>
    cases ordered with
    | obj increasing all =>
      cases depth with
      | zero => rfl
      | succ depth =>
        rw [ofValue, value?, entries?_ofFields all depth, Value.depth]
        simp only [Nat.add_le_add_iff_right]
        split
        · rw [Option.map_some, Value.object, Fields.ofList_of_increasing increasing]
        · rfl
  | _ => simp [ofValue, value?, Value.depth, Number.toValue]
termination_by structural v

theorem values?_ofValues (all : ∀ item ∈ items, item.Ordered) (depth : Nat) :
    values? (ofValues items) depth =
      if Value.itemsDepth items ≤ depth then some items else none := by
  cases items with
  | nil => simp [ofValues, values?, Value.itemsDepth]
  | cons item items =>
    obtain ⟨first, rest⟩ := forall_mem_cons.mp all
    rw [ofValues, values?, value?_ofValue first depth, values?_ofValues rest depth,
      Value.itemsDepth]
    simp only [Nat.max_le]
    by_cases here : item.depth ≤ depth <;> by_cases later : Value.itemsDepth items ≤ depth <;>
      simp [here, later]
termination_by structural items

theorem entries?_ofFields (all : ∀ entry ∈ fields, entry.2.Ordered) (depth : Nat) :
    entries? (ofFields fields) depth =
      if Value.fieldsDepth fields ≤ depth then some fields else none := by
  cases fields with
  | nil => simp [ofFields, entries?, Value.fieldsDepth]
  | cons entry fields =>
    obtain ⟨key, item⟩ := entry
    obtain ⟨first, rest⟩ := forall_mem_cons.mp all
    rw [ofFields, entries?, value?_ofValue first depth, entries?_ofFields rest depth,
      Value.fieldsDepth]
    simp only [Nat.max_le]
    by_cases here : item.depth ≤ depth <;> by_cases later : Value.fieldsDepth fields ≤ depth <;>
      simp [here, later]
termination_by structural fields

end

end Raw

end Json

namespace Value

open Json

mutual

/-- The text of a value is read as the value's own tree. -/
theorem reread?_eq (whole : v.Whole) (rereads : ∀ x ∈ v.floats, Rereads x) :
    v.reread? = some (Raw.ofValue v) := by
  cases v with
  | int => exact Literal.ofNumeral?_intOnto (whole_int_iff.mp whole)
  | float x => exact rereads x mem_cons_self
  | arr =>
    rw [reread?, rereadItems?_eq (whole_arr_iff.mp whole) rereads]
    rfl
  | obj =>
    rw [reread?, rereadFields?_eq (whole_obj_iff.mp whole) rereads]
    rfl
  | _ => rfl
termination_by structural v

theorem rereadItems?_eq (all : ∀ item ∈ items, item.Whole)
    (rereads : ∀ x ∈ itemsFloats items, Rereads x) :
    rereadItems? items = some (Raw.ofValues items) := by
  cases items with
  | nil => rfl
  | cons =>
    obtain ⟨first, rest⟩ := forall_mem_cons.mp all
    obtain ⟨here, later⟩ := forall_mem_append.mp rereads
    rw [rereadItems?, reread?_eq first here, rereadItems?_eq rest later]
    rfl
termination_by structural items

theorem rereadFields?_eq (all : ∀ entry ∈ fields, entry.2.Whole)
    (rereads : ∀ x ∈ fieldsFloats fields, Rereads x) :
    rereadFields? fields = some (Raw.ofFields fields) := by
  cases fields with
  | nil => rfl
  | cons =>
    obtain ⟨first, rest⟩ := forall_mem_cons.mp all
    obtain ⟨here, later⟩ := forall_mem_append.mp rereads
    rw [rereadFields?, reread?_eq first here, rereadFields?_eq rest later]
    rfl
termination_by structural fields

end

/-- The text of a value is read as its own tree. -/
theorem raw_read?_render (whole : v.Whole) (rereads : ∀ x ∈ v.floats, Rereads x) :
    Raw.read? v.render = some (Raw.ofValue v) := by
  rw [read?_render, reread?_eq whole rereads]

/-- A value comes back from its text unless it nests too deep. -/
theorem read?_render_eq (proper : v.Proper) (rereads : ∀ x ∈ v.floats, Rereads x) :
    read? v.render = if v.depth ≤ maxDepth then some v else none := by
  rw [read?, raw_read?_render proper.whole rereads, Option.bind_eq_bind, Option.bind_some,
    Raw.value?_ofValue proper.ordered]

end Value

end Pinflow
