import Pinflow.Value.Number

/-!
# Comparisons

The seven operators of conditions and compare nodes. Numbers are compared through
the floats they stand for; strings by their code points; an ordering between
anything else is false.
-/

namespace Pinflow

inductive Comparison where
  | eq
  | ne
  | gt
  | ge
  | lt
  | le
  | contains
deriving DecidableEq

/-- Does the text contain the other text as a block? -/
def containsBlock (sub : List Char) : List Char → Bool
  | [] => sub.isEmpty
  | c :: cs => sub.isPrefixOf (c :: cs) || containsBlock sub cs

namespace Comparison

/-- The operator of a symbol or of its two-letter name. -/
def ofName? : String → Option Comparison
  | "==" | "eq" => some .eq
  | "!=" | "ne" => some .ne
  | ">" | "gt" => some .gt
  | ">=" | "ge" => some .ge
  | "<" | "lt" => some .lt
  | "<=" | "le" => some .le
  | "contains" => some .contains
  | _ => none

/-- The name under which an operator is reported. -/
def name : Comparison → String
  | .eq => "Eq"
  | .ne => "Ne"
  | .gt => "Gt"
  | .ge => "Ge"
  | .lt => "Lt"
  | .le => "Le"
  | .contains => "Contains"

/-- Equality that takes `1` and `1.0` for the same number. It looks no deeper than
the two values themselves. -/
def looseEq (left right : Value) : Bool :=
  match left.asFloat?, right.asFloat? with
  | some x, some y => x == y
  | _, _ => left == right

/-- How two values are ordered, if they are. -/
def order? (left right : Value) : Option Ordering :=
  match left.asFloat?, right.asFloat? with
  | some x, some y =>
    if x < y then some .lt else if y < x then some .gt
    else if x == y then some .eq else none
  | _, _ =>
    match left, right with
    | .str a, .str b => some (if a < b then .lt else if b < a then .gt else .eq)
    | _, _ => none

/-- Membership: a block of a string, an item of an array, or a key of an object. -/
def holds (container element : Value) : Bool :=
  match container, element with
  | .str s, .str sub => containsBlock sub.toList s.toList
  | .arr items, needle => items.any fun item => looseEq item needle
  | .obj fields, .str key => Fields.contains fields key
  | _, _ => false

def apply (op : Comparison) (left right : Value) : Bool :=
  match op with
  | .eq => looseEq left right
  | .ne => !looseEq left right
  | .contains => holds left right
  | .gt => order? left right == some .gt
  | .ge => order? left right == some .gt || order? left right == some .eq
  | .lt => order? left right == some .lt
  | .le => order? left right == some .lt || order? left right == some .eq

end Comparison

end Pinflow
