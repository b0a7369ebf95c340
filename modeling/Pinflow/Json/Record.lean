import Pinflow.Json.Raw

/-!
# Records in JSON

Reading a tree as a record of declared fields. A record is a table, where unknown
keys are skipped without looking at their values and a declared key may come only
once; or a list of the fields in declared order, from which trailing fields may be
left off when they have a default.

A `Reader` is given the number of containers that may still be opened below.
-/

namespace Pinflow.Json

/-- Reads a tree in which at most `depth` more containers may be nested. -/
abbrev Reader (α : Type) := (depth : Nat) → Raw → Option α

namespace Reader

def value : Reader Value := fun depth tree => tree.value? depth

def string : Reader String
  | _, .text s => s
  | _, _ => none

def nat : Reader Nat
  | _, .number (some (.int (.ofNat n))) => some n
  | _, _ => none

def bool : Reader Bool
  | _, .bool b => some b
  | _, _ => none

def float : Reader Float
  | _, .number (some n) => some n.toFloat
  | _, _ => none

/-- A free-form object. -/
def fields : Reader Fields := fun depth tree =>
  match tree with
  | .table _ => (tree.value? depth).bind Value.asFields?
  | _ => none

def optional {α : Type} (reader : Reader α) : Reader (Option α)
  | _, .null => some none
  | depth, tree => (reader depth tree).map some

def list {α : Type} (reader : Reader α) : Reader (List α)
  | 0, _ => none
  | depth + 1, .list items => items.mapM (reader depth)
  | _, _ => none

/-- One of several names, plain or as the only key of a table over null. -/
def choice {α : Type} (ofName? : String → Option α) : Reader α
  | _, .text (some name) => ofName? name
  | _ + 1, .table [(some name, .null)] => ofName? name
  | _, _ => none

end Reader

structure FieldSpec where
  name : String
  tableMayLack : Bool := false
  listMayLack : Bool := false

namespace FieldSpec

def required (name : String) : FieldSpec := { name }

def defaulted (name : String) : FieldSpec := ⟨name, true, true⟩

/-- A field that is null when a table lacks it; a list has to spell it out. -/
def nullable (name : String) : FieldSpec := ⟨name, true, false⟩

/-- The trees of the declared fields in a table. -/
def ofTable? (specs : List FieldSpec) (members : List (Option String × Raw)) :
    Option (List (Option Raw)) :=
  if members.any fun member => member.1.isNone then none
  else specs.mapM fun spec =>
    match members.filter fun member => member.1 == some spec.name with
    | [] => if spec.tableMayLack then some none else none
    | [(_, tree)] => some (some tree)
    | _ => none

def ofList? : List FieldSpec → List Raw → Option (List (Option Raw))
  | [], [] => some []
  | [], _ :: _ => none
  | spec :: specs, [] => do
    let rest ← ofList? specs []
    if spec.listMayLack then some (none :: rest) else none
  | _ :: specs, tree :: trees => do
    let rest ← ofList? specs trees
    some (some tree :: rest)

end FieldSpec

/-- Read the declared fields of a record and hand them on with the depth left for
their contents. -/
def Reader.record {α : Type} (specs : List FieldSpec)
    (read : (depth : Nat) → List (Option Raw) → Option α) : Reader α
  | depth + 1, .table members => (FieldSpec.ofTable? specs members).bind (read depth)
  | depth + 1, .list items => (FieldSpec.ofList? specs items).bind (read depth)
  | _, _ => none

/-- Read a field that may be absent. -/
def Reader.orElse {α : Type} (reader : Reader α) (default : α) (depth : Nat) :
    Option Raw → Option α
  | none => some default
  | some tree => reader depth tree

end Pinflow.Json
