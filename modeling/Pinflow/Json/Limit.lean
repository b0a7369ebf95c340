import Pinflow.Json.Raw

/-!
# Where nesting is refused

A text that nests deeper than is read is refused at the bracket that opens one container too
many. `refusedAt?` finds this bracket.
-/

namespace Pinflow.Json

/-- Where in a text a scan stands. -/
inductive Place where
  | plain
  | quoted
  /-- Behind a backslash in a string. -/
  | escaped

namespace Place

/-- The place behind a character. -/
def next : Place → Char → Place
  | plain, '"' => quoted
  | plain, _ => plain
  | quoted, '"' => plain
  | quoted, '\\' => escaped
  | quoted, _ => quoted
  | escaped, _ => quoted

end Place

/-- The column of the first bracket that finds no room for its container, when `column` bytes
have gone before. -/
def refusedFrom? (place : Place) (room column : Nat) : List Char → Option Nat
  | [] => none
  | c :: cs =>
    let column := column + c.utf8Size
    match place, c with
    | .plain, '[' | .plain, '\x7b' =>
      match room with
      | 0 => some column
      | room + 1 => refusedFrom? .plain room column cs
    | .plain, ']' | .plain, '\x7d' => refusedFrom? .plain (room + 1) column cs
    | place, c => refusedFrom? (place.next c) room column cs

/-- The column at which a text is refused for its nesting. -/
def refusedAt? (text : String) : Option Nat := refusedFrom? .plain maxDepth 0 text.toList

end Pinflow.Json
