import Pinflow.Decimal.Bound
import Pinflow.Value.Basic

/-!
# The shape of values

How deep a value nests, which floats it holds, and what makes it proper: it is whole, that is,
its integers have 64 bits, and it is ordered, that is, its keys increase. Collecting the entries
of an object keeps their order if the keys increase already, and brings it about if they do not.
-/

namespace Pinflow

open List

variable {key : String} {value : Value} {entry : String × Value} {items : List Value}
  {fields : Fields} {entries : List (String × Value)}

namespace Fields

/-- The keys increase, so no key comes twice. -/
def Increasing (fields : Fields) : Prop := fields.Pairwise fun a b => a.1 < b.1

theorem mem_of_get? (found : fields.get? key = some value) : (key, value) ∈ fields := by
  induction fields with
  | nil => cases found
  | cons entry rest ih =>
    obtain ⟨k, v⟩ := entry
    rw [get?_cons] at found
    split at found
    · rename_i same
      cases found
      rw [same]
      exact mem_cons_self
    · exact mem_cons_of_mem _ (ih found)

theorem mem_insert (member : entry ∈ fields.insert key value) :
    entry = (key, value) ∨ entry ∈ fields := by
  induction fields with
  | nil => exact .inl (mem_singleton.mp member)
  | cons first rest ih =>
    rw [insert] at member
    split at member
    · exact mem_cons.mp member
    · split at member
      · rcases mem_cons.mp member with here | later
        · exact .inl here
        · exact .inr (mem_cons_of_mem first later)
      · rcases mem_cons.mp member with rfl | later
        · exact .inr mem_cons_self
        · exact (ih later).imp id (mem_cons_of_mem first)

theorem Increasing.insert (increasing : fields.Increasing) (key : String) (value : Value) :
    (fields.insert key value).Increasing := by
  induction fields with
  | nil => exact pairwise_singleton _ _
  | cons first rest ih =>
    obtain ⟨least, later⟩ := pairwise_cons.mp increasing
    rw [Fields.insert]
    split
    · rename_i before
      refine pairwise_cons.mpr ⟨fun entry member => ?_, increasing⟩
      rcases mem_cons.mp member with rfl | member
      · exact before
      · exact String.lt_trans before (least entry member)
    · rename_i notBefore
      split
      · rename_i same
        exact pairwise_cons.mpr ⟨fun entry member => same ▸ least entry member, later⟩
      · rename_i apart
        refine pairwise_cons.mpr ⟨fun entry member => ?_, ih later⟩
        rcases mem_insert member with rfl | member
        · exact Std.lt_of_le_of_ne notBefore apart
        · exact least entry member

theorem increasing_foldl_insert (entries : List (String × Value)) (increasing : fields.Increasing) :
    Increasing (entries.foldl (fun fields entry => fields.insert entry.1 entry.2) fields) := by
  induction entries generalizing fields with
  | nil => exact increasing
  | cons entry entries ih => exact ih (increasing.insert entry.1 entry.2)

theorem increasing_ofList (entries : List (String × Value)) : (ofList entries).Increasing :=
  increasing_foldl_insert entries List.Pairwise.nil

theorem mem_foldl_insert
    (member : entry ∈ entries.foldl (fun fields entry => fields.insert entry.1 entry.2) fields) :
    entry ∈ entries ∨ entry ∈ fields := by
  induction entries generalizing fields with
  | nil => exact .inr member
  | cons first entries ih =>
    rcases ih member with later | here
    · exact .inl (mem_cons_of_mem first later)
    · rcases mem_insert here with rfl | before
      · exact .inl mem_cons_self
      · exact .inr before

theorem mem_of_mem_ofList (member : entry ∈ ofList entries) : entry ∈ entries := by
  rcases mem_foldl_insert member with here | none
  · exact here
  · exact absurd none not_mem_nil

/-- A key above all others goes to the end. -/
theorem insert_of_lt (above : ∀ entry ∈ fields, entry.1 < key) :
    fields.insert key value = fields ++ [(key, value)] := by
  induction fields with
  | nil => rfl
  | cons first rest ih =>
    obtain ⟨k, v⟩ := first
    have below : k < key := above (k, v) mem_cons_self
    have apart : k ≠ key := fun same => String.lt_irrefl key (same ▸ below)
    rw [insert, if_neg (String.lt_asymm below), if_neg apart,
      ih fun entry member => above entry (mem_cons_of_mem (k, v) member)]
    rfl

theorem foldl_insert_of_increasing {entries : Fields}
    (increasing : Increasing (fields ++ entries)) :
    entries.foldl (fun fields entry => fields.insert entry.1 entry.2) fields =
      fields ++ entries := by
  induction entries generalizing fields with
  | nil => rw [foldl_nil, append_nil]
  | cons entry entries ih =>
    have above : ∀ other ∈ fields, other.1 < entry.1 := by
      intro other member
      exact (pairwise_append.mp increasing).2.2 other member entry mem_cons_self
    rw [append_cons] at increasing ⊢
    rw [foldl_cons, insert_of_lt above]
    exact ih increasing

/-- Entries in order are collected as they stand. -/
theorem ofList_of_increasing (increasing : fields.Increasing) : ofList fields = fields :=
  @foldl_insert_of_increasing [] fields increasing

end Fields

namespace Value

mutual

/-- How many containers are nested in a value, itself included. -/
def depth : Value → Nat
  | .arr items => itemsDepth items + 1
  | .obj fields => fieldsDepth fields + 1
  | _ => 0
termination_by structural v => v

def itemsDepth : List Value → Nat
  | [] => 0
  | v :: vs => max (depth v) (itemsDepth vs)
termination_by structural vs => vs

def fieldsDepth : List (String × Value) → Nat
  | [] => 0
  | (_, v) :: fields => max (depth v) (fieldsDepth fields)
termination_by structural fields => fields

end

theorem itemsDepth_le_iff {n : Nat} : itemsDepth items ≤ n ↔ ∀ item ∈ items, item.depth ≤ n := by
  induction items with
  | nil => simp [itemsDepth]
  | cons item items ih => rw [itemsDepth, Nat.max_le, ih, forall_mem_cons]

theorem fieldsDepth_le_iff {fields : List (String × Value)} {n : Nat} :
    fieldsDepth fields ≤ n ↔ ∀ entry ∈ fields, entry.2.depth ≤ n := by
  induction fields with
  | nil => simp [fieldsDepth]
  | cons entry fields ih => rw [fieldsDepth, Nat.max_le, ih, forall_mem_cons]

mutual

def floats : Value → List Float
  | .float x => [x]
  | .arr items => itemsFloats items
  | .obj fields => fieldsFloats fields
  | _ => []
termination_by structural v => v

def itemsFloats : List Value → List Float
  | [] => []
  | v :: vs => floats v ++ itemsFloats vs
termination_by structural vs => vs

def fieldsFloats : List (String × Value) → List Float
  | [] => []
  | (_, v) :: fields => floats v ++ fieldsFloats fields
termination_by structural fields => fields

end

mutual

def ints : Value → List Int
  | .int i => [i]
  | .arr items => itemsInts items
  | .obj fields => fieldsInts fields
  | _ => []
termination_by structural v => v

def itemsInts : List Value → List Int
  | [] => []
  | v :: vs => ints v ++ itemsInts vs
termination_by structural vs => vs

def fieldsInts : List (String × Value) → List Int
  | [] => []
  | (_, v) :: fields => ints v ++ fieldsInts fields
termination_by structural fields => fields

end

/-- An integer of 64 bits, with a sign or without one. -/
def Fits (i : Int) : Prop := -(signedBound : Int) ≤ i ∧ i < unsignedBound

instance (i : Int) : Decidable (Fits i) := inferInstanceAs (Decidable (_ ∧ _))

/-- Integers have 64 bits. -/
def Whole (v : Value) : Prop := ∀ i ∈ v.ints, Fits i

instance (v : Value) : Decidable v.Whole := inferInstanceAs (Decidable (∀ i ∈ v.ints, Fits i))

@[simp] theorem whole_null : Value.null.Whole := forall_mem_nil _

@[simp] theorem whole_bool (b : Bool) : (Value.bool b).Whole := forall_mem_nil _

@[simp] theorem whole_str (s : String) : (Value.str s).Whole := forall_mem_nil _

@[simp] theorem whole_float (x : Float) : (Value.float x).Whole := forall_mem_nil _

@[simp] theorem whole_int_iff {i : Int} : (Value.int i).Whole ↔ Fits i := forall_mem_singleton

@[simp] theorem whole_arr_iff : (Value.arr items).Whole ↔ ∀ item ∈ items, item.Whole := by
  rw [Whole, ints]
  induction items with
  | nil => simp [itemsInts]
  | cons item items ih => rw [itemsInts, forall_mem_append, ih, forall_mem_cons, Whole]

@[simp] theorem whole_obj_iff {fields : List (String × Value)} :
    (Value.obj fields).Whole ↔ ∀ entry ∈ fields, entry.2.Whole := by
  rw [Whole, ints]
  induction fields with
  | nil => simp [fieldsInts]
  | cons entry fields ih => rw [fieldsInts, forall_mem_append, ih, forall_mem_cons, Whole]

/-- The keys of objects increase. -/
inductive Ordered : Value → Prop
  | null : Ordered .null
  | bool (b : Bool) : Ordered (.bool b)
  | int (i : Int) : Ordered (.int i)
  | float (x : Float) : Ordered (.float x)
  | str (s : String) : Ordered (.str s)
  | arr {items : List Value} (all : ∀ item ∈ items, Ordered item) : Ordered (.arr items)
  | obj {fields : List (String × Value)} (increasing : Fields.Increasing fields)
      (all : ∀ entry ∈ fields, Ordered entry.2) : Ordered (.obj fields)

/-- Ordered entries make an ordered object, whatever order they come in. -/
theorem Ordered.object (all : ∀ entry ∈ entries, Ordered entry.2) : Ordered (.object entries) :=
  .obj (Fields.increasing_ofList entries) fun entry member =>
    all entry (Fields.mem_of_mem_ofList member)

theorem Ordered.insert (ordered : (Value.obj fields).Ordered) (new : value.Ordered) :
    (Value.obj (fields.insert key value)).Ordered := by
  cases ordered with
  | obj increasing all =>
    refine .obj (increasing.insert key value) fun entry member => ?_
    rcases Fields.mem_insert member with rfl | old
    · exact new
    · exact all entry old

theorem Ordered.get? (ordered : (Value.obj fields).Ordered) (found : fields.get? key = some value) :
    value.Ordered := by
  cases ordered with
  | obj increasing all => exact all (key, value) (Fields.mem_of_get? found)

/-- Integers have 64 bits, and the keys of objects increase. -/
structure Proper (v : Value) : Prop where
  whole : v.Whole
  ordered : v.Ordered

theorem Proper.arr (all : ∀ item ∈ items, Proper item) : Proper (.arr items) :=
  ⟨whole_arr_iff.mpr fun item member => (all item member).whole,
    .arr fun item member => (all item member).ordered⟩

theorem Proper.object (all : ∀ entry ∈ entries, Proper entry.2) : Proper (.object entries) :=
  ⟨whole_obj_iff.mpr fun entry member => (all entry (Fields.mem_of_mem_ofList member)).whole,
    .object fun entry member => (all entry member).ordered⟩

theorem depth_object_le {n : Nat} (all : ∀ entry ∈ entries, entry.2.depth ≤ n) :
    (Value.object entries).depth ≤ n + 1 :=
  Nat.succ_le_succ (fieldsDepth_le_iff.mpr fun entry member =>
    all entry (Fields.mem_of_mem_ofList member))

end Value

end Pinflow
