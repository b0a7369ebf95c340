/-!
# Values

A value is what a variable, a pin, a node's config or a snapshot holds. Integers
and binary64 numbers are different values: `1` and `1.0` are not equal. The fields
of an object are kept in increasing key order, so two objects with the same
entries are the same list.

`Fields` is the view every object operation goes through: `get?` and `insert` say
what happens to one key and leave the order intact.
-/

namespace Pinflow

/-- A dynamic value. Integers lie between `-2 ^ 63` and `2 ^ 64`, floats are
finite, and the keys of an object increase strictly. -/
inductive Value where
  | null
  | bool (b : Bool)
  | int (i : Int)
  | float (x : Float)
  | str (s : String)
  | arr (items : List Value)
  | obj (fields : List (String × Value))

/-- The entries of an object, in increasing key order. -/
abbrev Fields := List (String × Value)

instance : Inhabited Value := ⟨.null⟩

namespace Fields

def get? (fields : Fields) (key : String) : Option Value :=
  match fields with
  | [] => none
  | (k, v) :: rest => if k = key then some v else get? rest key

/-- Put a value under a key, replacing what was there and keeping the order. -/
def insert (fields : Fields) (key : String) (value : Value) : Fields :=
  match fields with
  | [] => [(key, value)]
  | (k, v) :: rest =>
    if key < k then (key, value) :: (k, v) :: rest
    else if k = key then (key, value) :: rest
    else (k, v) :: insert rest key value

/-- Collect entries; of several with one key the last wins. -/
def ofList (entries : List (String × Value)) : Fields :=
  entries.foldl (fun fields entry => fields.insert entry.1 entry.2) []

def contains (fields : Fields) (key : String) : Bool :=
  (fields.get? key).isSome

@[simp] theorem get?_nil (key : String) : get? [] key = none := rfl

@[simp] theorem get?_cons (k : String) (v : Value) (rest : Fields) (key : String) :
    get? ((k, v) :: rest) key = if k = key then some v else get? rest key := rfl

theorem get?_insert_self (fields : Fields) (key : String) (value : Value) :
    (fields.insert key value).get? key = some value := by
  induction fields with
  | nil => simp [insert]
  | cons entry rest ih =>
      obtain ⟨k, v⟩ := entry
      unfold insert
      split
      · simp
      · split
        · simp
        · rename_i hne
          simpa [hne] using ih

theorem get?_insert_of_ne (fields : Fields) {key other : String} (value : Value)
    (h : key ≠ other) : (fields.insert key value).get? other = fields.get? other := by
  induction fields with
  | nil => simp [insert, h]
  | cons entry rest ih =>
      obtain ⟨k, v⟩ := entry
      unfold insert
      split
      · simp [h]
      · split
        · rename_i hk
          subst hk
          simp [h]
        · simp [ih]

theorem insert_insert (fields : Fields) (key : String) (older newer : Value) :
    (fields.insert key older).insert key newer = fields.insert key newer := by
  induction fields with
  | nil => simp [insert]
  | cons entry rest ih =>
      obtain ⟨k, v⟩ := entry
      rw [insert, insert]
      split
      · simp [insert]
      · split
        · simp [insert]
        · rename_i notBefore apart
          rw [insert, if_neg notBefore, if_neg apart, ih]

end Fields

namespace Value

mutual

/-- Equality of values. Numbers of different sort differ, and the two zeros of
binary64 are equal. -/
def beq : Value → Value → Bool
  | .null, .null => true
  | .bool a, .bool b => a == b
  | .int a, .int b => a == b
  | .float a, .float b => a == b
  | .str a, .str b => a == b
  | .arr as, .arr bs => beqItems as bs
  | .obj as, .obj bs => beqFields as bs
  | _, _ => false
termination_by structural v => v

def beqItems : List Value → List Value → Bool
  | [], [] => true
  | a :: as, b :: bs => beq a b && beqItems as bs
  | _, _ => false
termination_by structural items => items

def beqFields : List (String × Value) → List (String × Value) → Bool
  | [], [] => true
  | (k, a) :: as, (l, b) :: bs => k == l && beq a b && beqFields as bs
  | _, _ => false
termination_by structural fields => fields

end

instance : BEq Value := ⟨beq⟩

def isNull : Value → Bool
  | .null => true
  | _ => false

/-- The value under a key of an object; nothing for any other value. -/
def field? (value : Value) (key : String) : Option Value :=
  match value with
  | .obj fields => Fields.get? fields key
  | _ => none

def asString? : Value → Option String
  | .str s => some s
  | _ => none

def asBool? : Value → Option Bool
  | .bool b => some b
  | _ => none

def asList? : Value → Option (List Value)
  | .arr items => some items
  | _ => none

def asFields? : Value → Option Fields
  | .obj fields => some fields
  | _ => none

/-- A non-negative integer. Floats never count, not even `1.0`. -/
def asNat? : Value → Option Nat
  | .int (.ofNat n) => some n
  | _ => none

def stringField? (value : Value) (key : String) : Option String := (value.field? key).bind asString?

def boolField? (value : Value) (key : String) : Option Bool := (value.field? key).bind asBool?

def natField? (value : Value) (key : String) : Option Nat := (value.field? key).bind asNat?

def listField? (value : Value) (key : String) : Option (List Value) :=
  (value.field? key).bind asList?

def fieldsField? (value : Value) (key : String) : Option Fields := (value.field? key).bind asFields?

def ofNat (n : Nat) : Value := .int n

def object (entries : List (String × Value)) : Value := .obj (Fields.ofList entries)

end Value

end Pinflow
