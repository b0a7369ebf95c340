import Pinflow.Json.Token

/-!
# JSON trees

A tree is a JSON text as read, before anything is known about what it should hold:
members stay in order and repeated keys stay. It is built from tokens on a stack of
open containers, so nesting has no limit here; `Raw.value?` is where values are
limited to a nesting depth.
-/

namespace Pinflow.Json

/-- A JSON text as read. -/
inductive Raw where
  | null
  | bool (b : Bool)
  | number (n : Option Number)
  | text (s : Option String)
  | list (items : List Raw)
  | table (members : List (Option String × Raw))

instance : Inhabited Raw := ⟨.null⟩

/-- A container being read, its parts in reverse; a `member` waits for the value of
a key. -/
inductive Frame where
  | list (items : List Raw)
  | table (members : List (Option String × Raw))
  | member (key : Option String)

inductive Expect where
  | value
  | firstItem
  | firstKey
  | nextKey
  | colon (key : Option String)
  | separator
  | ending (tree : Raw)

namespace Expect

/-- A tree is complete: hand it to the innermost open container. -/
def complete (tree : Raw) : List Frame → Option (List Frame × Expect)
  | [] => some ([], .ending tree)
  | .list items :: stack => some (.list (tree :: items) :: stack, .separator)
  | .member key :: .table members :: stack =>
    some (.table ((key, tree) :: members) :: stack, .separator)
  | _ => none

/-- Start a value. -/
def open? (stack : List Frame) : Token → Option (List Frame × Expect)
  | .null => complete .null stack
  | .bool b => complete (.bool b) stack
  | .number n => complete (.number n) stack
  | .text s => complete (.text s) stack
  | .openBracket => some (.list [] :: stack, .firstItem)
  | .openBrace => some (.table [] :: stack, .firstKey)
  | _ => none

/-- Close the innermost container. -/
def close? : List Frame → Token → Option (List Frame × Expect)
  | .list items :: stack, .closeBracket => complete (.list items.reverse) stack
  | .table members :: stack, .closeBrace => complete (.table members.reverse) stack
  | _, _ => none

/-- Read one token. -/
def next? (stack : List Frame) : Expect → Token → Option (List Frame × Expect)
  | .value, token => open? stack token
  | .firstItem, .closeBracket => close? stack .closeBracket
  | .firstItem, token => open? stack token
  | .firstKey, .closeBrace => close? stack .closeBrace
  | .firstKey, .text key => some (stack, .colon key)
  | .nextKey, .text key => some (stack, .colon key)
  | .colon key, .colon => some (.member key :: stack, .value)
  | .separator, .comma =>
    match stack with
    | .list _ :: _ => some (stack, .value)
    | .table _ :: _ => some (stack, .nextKey)
    | _ => none
  | .separator, token => close? stack token
  | _, _ => none

end Expect

namespace Raw

def build? (stack : List Frame) (expect : Expect) : List Token → Option Raw
  | [] =>
    match stack, expect with
    | [], .ending tree => some tree
    | _, _ => none
  | token :: tokens =>
    match expect.next? stack token with
    | none => none
    | some (stack, expect) => build? stack expect tokens

def read? (text : String) : Option Raw := do
  let tokens ← tokens? text.toList
  build? [] .value tokens

mutual

/-- The value a tree holds, if at most `depth` containers are nested in it and every
number and string in it has a value. Of members with one key the last wins. -/
def value? : Raw → Nat → Option Value
  | .null, _ => some .null
  | .bool b, _ => some (.bool b)
  | .number n, _ => n.map Number.toValue
  | .text s, _ => s.map .str
  | .list _, 0 => none
  | .list items, depth + 1 => (values? items depth).map .arr
  | .table _, 0 => none
  | .table members, depth + 1 => (entries? members depth).map Value.object
termination_by structural tree => tree

def values? : List Raw → Nat → Option (List Value)
  | [], _ => some []
  | tree :: trees, depth => do
    let value ← value? tree depth
    let values ← values? trees depth
    some (value :: values)
termination_by structural trees => trees

def entries? : List (Option String × Raw) → Nat → Option (List (String × Value))
  | [], _ => some []
  | (key, tree) :: members, depth => do
    let key ← key
    let value ← value? tree depth
    let entries ← entries? members depth
    some ((key, value) :: entries)
termination_by structural members => members

end

mutual

/-- The tree of a value. -/
def ofValue : Value → Raw
  | .null => .null
  | .bool b => .bool b
  | .int i => .number (some (.int i))
  | .float x => .number (some (.float x))
  | .str s => .text (some s)
  | .arr items => .list (ofValues items)
  | .obj fields => .table (ofFields fields)
termination_by structural v => v

def ofValues : List Value → List Raw
  | [] => []
  | v :: vs => ofValue v :: ofValues vs
termination_by structural vs => vs

def ofFields : List (String × Value) → List (Option String × Raw)
  | [] => []
  | (k, v) :: fields => (some k, ofValue v) :: ofFields fields
termination_by structural fields => fields

end

end Raw

/-- The deepest nesting that is read. -/
def maxDepth : Nat := 127

end Pinflow.Json

namespace Pinflow.Value

def read? (text : String) : Option Value := do
  let tree ← Json.Raw.read? text
  tree.value? Json.maxDepth

end Pinflow.Value

