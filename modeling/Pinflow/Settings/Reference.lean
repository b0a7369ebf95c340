/-!
# References to the environment

A text may refer to variables of the environment as `$` and a name in braces. A
reference to a variable that is not set stays as it is. A reference that is not closed
takes the rest of the text for its name.
-/

namespace Pinflow.Reference

/-- A text as a sequence of plain characters and names referred to. -/
inductive Piece where
  | plain (c : Char)
  | name (name : String)

/-- Read on from plain text, or within the name of a reference. -/
def piecesFrom : (name : Option (List Char)) → List Char → List Piece
  | none, [] => []
  | some name, [] => [.name (String.ofList name.reverse)]
  | none, '$' :: '\x7b' :: cs => piecesFrom (some []) cs
  | none, c :: cs => .plain c :: piecesFrom none cs
  | some name, c :: cs =>
    if c = '\x7d' then .name (String.ofList name.reverse) :: piecesFrom none cs
    else piecesFrom (some (c :: name)) cs

def pieces (text : String) : List Piece := piecesFrom none text.toList

/-- The names referred to. -/
def names (text : String) : List String :=
  (pieces text).filterMap fun piece =>
    match piece with
    | .plain _ => none
    | .name name => some name

def fill (lookup : String → Option String) : Piece → List Char
  | .plain c => [c]
  | .name name =>
    match lookup name with
    | some value => value.toList
    | none => '$' :: '\x7b' :: name.toList ++ ['\x7d']

/-- Fill in every reference. What is filled in is not looked at again. -/
def expand (lookup : String → Option String) (text : String) : String :=
  String.ofList ((pieces text).flatMap (fill lookup))

end Pinflow.Reference
