import Pinflow.Json.Record
import Pinflow.Proofs.Json.Roundtrip
import Pinflow.Proofs.Json.Soundness

/-!
# Records through text

Reading back what was written of a record. A table of distinct keys hands every declared field
the tree of its entry, whatever the order of the entries: `ofTable?_ofFields`. In the other
direction, whatever form a record was read from, its fields are parts of the tree and may nest
one level less: `exists_slots_of_record`.
-/

namespace Pinflow.Json

open List

variable {fields : Fields} {α : Type} {depth : Nat} {specs : List FieldSpec} {tree : Raw}
  {reader : Reader α} {slots : List (Option Raw)} {write : α → Value}

namespace Raw

theorem ofValues_eq_map (items : List Value) : ofValues items = items.map ofValue := by
  induction items with
  | nil => rfl
  | cons item items ih => rw [ofValues, ih, map_cons]

theorem ofFields_eq_map (fields : List (String × Value)) :
    ofFields fields = fields.map fun entry => (some entry.1, ofValue entry.2) := by
  induction fields with
  | nil => rfl
  | cons entry fields ih => rw [ofFields, ih, map_cons]

end Raw

theorem filter_eq_get? (distinct : (fields.map Prod.fst).Nodup) (key : String) :
    fields.filter (fun entry => entry.1 == key) =
      ((fields.get? key).map fun v => (key, v)).toList := by
  induction fields with
  | nil => rfl
  | cons entry fields ih =>
    obtain ⟨k, v⟩ := entry
    obtain ⟨new, rest⟩ := nodup_cons.mp distinct
    by_cases same : k = key
    · subst same
      have others : fields.filter (fun entry => entry.1 == k) = [] := by
        refine filter_eq_nil_iff.mpr fun entry member isKey => new ?_
        exact mem_map.mpr ⟨entry, member, beq_iff_eq.mp isKey⟩
      simp [others]
    · simp [same, ih rest]

/-- What a table hands to a declared field. -/
def slot? (fields : Fields) (spec : FieldSpec) : Option (Option Raw) :=
  match fields.get? spec.name with
  | some v => some (some (Raw.ofValue v))
  | none => if spec.tableMayLack then some none else none

theorem ofTable?_ofFields (distinct : (fields.map Prod.fst).Nodup) (specs : List FieldSpec) :
    FieldSpec.ofTable? specs (Raw.ofFields fields) = specs.mapM (slot? fields) := by
  have named : ((Raw.ofFields fields).any fun member => member.1.isNone) = false := by
    simp [Raw.ofFields_eq_map]
  have found : ∀ key, (Raw.ofFields fields).filter (fun member => member.1 == some key) =
      ((fields.get? key).map fun v => (some key, Raw.ofValue v)).toList := by
    intro key
    have sameKey : ((fun member : Option String × Raw => member.1 == some key) ∘
        fun entry : String × Value => (some entry.1, Raw.ofValue entry.2)) =
        fun entry => entry.1 == key := by
      funext entry
      simp
    rw [Raw.ofFields_eq_map, filter_map, sameKey, filter_eq_get? distinct]
    cases fields.get? key <;> rfl
  rw [FieldSpec.ofTable?, named]
  refine congrArg (List.mapM · specs) (funext fun spec => ?_)
  rw [found, slot?]
  cases fields.get? spec.name <;> rfl

/-- A record that is written as a table. -/
theorem record_obj (distinct : (fields.map Prod.fst).Nodup) (specs : List FieldSpec)
    (read : Nat → List (Option Raw) → Option α) (depth : Nat) :
    Reader.record specs read (depth + 1) (Raw.ofValue (.obj fields)) =
      (specs.mapM (slot? fields)).bind (read depth) := by
  rw [Raw.ofValue, Reader.record, ofTable?_ofFields distinct]

namespace Reader

@[simp] theorem string_ofValue (depth : Nat) (s : String) :
    string depth (Raw.ofValue (.str s)) = some s := rfl

@[simp] theorem nat_ofValue (depth n : Nat) : nat depth (Raw.ofValue (.ofNat n)) = some n := rfl

theorem value_ofValue {v : Value} (ordered : v.Ordered) (depth : Nat) :
    value depth (Raw.ofValue v) = if v.depth ≤ depth then some v else none :=
  Raw.value?_ofValue ordered depth

theorem fields_ofValue (ordered : (Value.obj fields).Ordered)
    (within : (Value.obj fields).depth ≤ depth) :
    Reader.fields depth (Raw.ofValue (.obj fields)) = some fields := by
  have held : (Raw.ofValue (.obj fields)).value? depth = some (.obj fields) := by
    rw [Raw.value?_ofValue ordered, if_pos within]
  rw [Raw.ofValue] at held ⊢
  rw [Reader.fields, held]
  rfl

/-- Items that are read back if they have a property are all read back if all have it. -/
theorem list_map_guard {P : α → Prop} [DecidablePred P] {items : List α}
    (each : ∀ item ∈ items, reader depth (Raw.ofValue (write item)) =
      if P item then some item else none) :
    list reader (depth + 1) (Raw.ofValue (.arr (items.map write))) =
      if ∀ item ∈ items, P item then some items else none := by
  rw [Raw.ofValue, list, Raw.ofValues_eq_map, mapM_map, mapM_map]
  induction items with
  | nil => simp
  | cons item items ih =>
    obtain ⟨first, rest⟩ := forall_mem_cons.mp each
    rw [mapM_cons, ih rest, Function.comp_apply, Function.comp_apply, first]
    simp only [forall_mem_cons]
    by_cases here : P item
    · rw [if_pos here]
      by_cases later : ∀ item ∈ items, P item
      · rw [if_pos later, if_pos ⟨here, later⟩]
        rfl
      · rw [if_neg later, if_neg (not_and_of_not_right _ later)]
        rfl
    · rw [if_neg here, if_neg (not_and_of_not_left _ here)]
      rfl

theorem list_map {items : List α}
    (each : ∀ item ∈ items, reader depth (Raw.ofValue (write item)) = some item) :
    list reader (depth + 1) (Raw.ofValue (.arr (items.map write))) = some items := by
  have all : ∀ item ∈ items, reader depth (Raw.ofValue (write item)) =
      if True then some item else none := by
    intro item member
    rw [each item member, if_pos trivial]
  rw [list_map_guard all, if_pos fun _ _ => trivial]

end Reader

/-- What a list was mapped to comes from one of its items. -/
theorem exists_of_mem_mapM {β : Type} {f : α → Option β} {items : List α} {results : List β}
    (mapped : items.mapM f = some results) {result : β} (member : result ∈ results) :
    ∃ item ∈ items, f item = some result := by
  induction items generalizing results with
  | nil =>
    cases mapped
    exact absurd member not_mem_nil
  | cons item items ih =>
    rw [mapM_cons] at mapped
    obtain ⟨first, here, mapped⟩ := Option.bind_eq_some_iff.mp mapped
    obtain ⟨rest, later, mapped⟩ := Option.bind_eq_some_iff.mp mapped
    cases mapped
    rcases mem_cons.mp member with rfl | member
    · exact ⟨item, mem_cons_self, here⟩
    · obtain ⟨other, inside, same⟩ := ih later member
      exact ⟨other, mem_cons_of_mem item inside, same⟩

theorem mem_of_ofTable? {members : List (Option String × Raw)}
    (found : FieldSpec.ofTable? specs members = some slots) (member : some tree ∈ slots) :
    ∃ key, (key, tree) ∈ members := by
  rw [FieldSpec.ofTable?] at found
  split at found
  · cases found
  · obtain ⟨spec, -, handed⟩ := exists_of_mem_mapM found member
    split at handed
    · split at handed <;> cases handed
    · rename_i key held same
      cases handed
      have kept : (key, tree) ∈ members.filter fun member => member.1 == some spec.name := by
        rw [same]
        exact mem_singleton_self _
      exact ⟨key, (mem_filter.mp kept).1⟩
    · cases handed

theorem mem_of_ofList? {trees : List Raw} (found : FieldSpec.ofList? specs trees = some slots)
    (member : some tree ∈ slots) : tree ∈ trees := by
  fun_induction FieldSpec.ofList? specs trees generalizing slots with
  | case1 =>
    cases found
    exact absurd member not_mem_nil
  | case2 => cases found
  | case3 spec specs ih =>
    obtain ⟨rest, later, found⟩ := Option.bind_eq_some_iff.mp found
    split at found <;> cases found
    rcases mem_cons.mp member with absent | member
    · cases absent
    · exact ih later member
  | case4 spec specs first trees ih =>
    obtain ⟨rest, later, found⟩ := Option.bind_eq_some_iff.mp found
    cases found
    rcases mem_cons.mp member with here | member
    · cases here
      exact mem_cons_self
    · exact mem_cons_of_mem first (ih later member)

/-- The fields of a record that was read are parts of its tree, one level down. -/
theorem exists_slots_of_record {read : Nat → List (Option Raw) → Option α} {a : α}
    (fits : tree.Fits) (reads : Reader.record specs read depth tree = some a) :
    ∃ inner slots, depth = inner + 1 ∧ read inner slots = some a ∧
      ∀ field, some field ∈ slots → field.Fits := by
  rw [Reader.record.eq_def] at reads
  split at reads
  · rename_i inner members
    obtain ⟨slots, found, reads⟩ := Option.bind_eq_some_iff.mp reads
    refine ⟨inner, slots, rfl, reads, fun field member => ?_⟩
    cases fits with
    | table all =>
      obtain ⟨key, inside⟩ := mem_of_ofTable? found member
      exact all (key, field) inside
  · rename_i inner items
    obtain ⟨slots, found, reads⟩ := Option.bind_eq_some_iff.mp reads
    refine ⟨inner, slots, rfl, reads, fun field member => ?_⟩
    cases fits with
    | list all => exact all field (mem_of_ofList? found member)
  · cases reads

/-- The items of a list that was read were read one level down. -/
theorem exists_tree_of_list {items : List α} (fits : tree.Fits)
    (reads : Reader.list reader depth tree = some items) :
    ∃ inner, depth = inner + 1 ∧
      ∀ item ∈ items, ∃ part : Raw, part.Fits ∧ reader inner part = some item := by
  rw [Reader.list.eq_def] at reads
  split at reads
  · cases reads
  · rename_i inner trees
    refine ⟨inner, rfl, fun item member => ?_⟩
    obtain ⟨part, inside, read⟩ := exists_of_mem_mapM reads member
    cases fits with
    | list all => exact ⟨part, all part inside, read⟩
  · cases reads

/-- A free-form object that was read is proper and nests no deeper than was allowed. -/
theorem proper_of_fields (fits : tree.Fits) (reads : Reader.fields depth tree = some fields) :
    (Value.obj fields).Proper ∧ (Value.obj fields).depth ≤ depth := by
  cases tree with
  | table =>
    obtain ⟨v, held, isObject⟩ := Option.bind_eq_some_iff.mp reads
    cases v with
    | obj =>
      cases isObject
      exact Raw.proper_of_value? fits held
    | _ => cases isObject
  | _ => cases reads

end Pinflow.Json
