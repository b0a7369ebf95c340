import Pinflow.Text.Natural
import Pinflow.Value.Basic

/-!
# Dotted paths

A path such as `player.bag.1` names a place inside a table of variables. Reading
follows object keys and array indices; writing follows object keys only, and turns
whatever stands in its way into an object.
-/

namespace Pinflow

namespace Path

/-- Cut at every occurrence of a character. -/
def splitAt (separator : Char) : List Char → List (List Char)
  | [] => [[]]
  | c :: cs =>
    if c = separator then [] :: splitAt separator cs
    else match splitAt separator cs with
      | [] => [[c]]
      | s :: rest => (c :: s) :: rest

/-- The segments of a path. There is always at least one, and segments may be
empty. -/
def segments (path : String) : List String :=
  (splitAt '.' path.toList).map String.ofList

/-- An array index. -/
def index? (segment : String) : Option Nat := Text.natural? segment.toList

end Path

/-- Go one segment down. -/
def Value.step? (value : Value) (segment : String) : Option Value :=
  match value with
  | .obj fields => Fields.get? fields segment
  | .arr items => (Path.index? segment).bind fun i => items[i]?
  | _ => none

namespace Fields

/-- Follow segments from a table. -/
def follow? (root : Fields) : List String → Option Value
  | [] => none
  | first :: rest => (root.get? first).bind fun value => rest.foldlM Value.step? value

/-- The fields of the object under a key; none if there is no object. -/
def child (root : Fields) (key : String) : Fields :=
  match root.get? key with
  | some (.obj fields) => fields
  | _ => []

/-- Write below a table, segment by segment. -/
def assignAt (root : Fields) : List String → Value → Fields
  | [], _ => root
  | [last], value => root.insert last value
  | segment :: rest, value => root.insert segment (.obj (assignAt (root.child segment) rest value))

def lookup? (root : Fields) (path : String) : Option Value := root.follow? (Path.segments path)

/-- Put a value at a dotted path. -/
def assign (root : Fields) (path : String) (value : Value) : Fields :=
  root.assignAt (Path.segments path) value

end Fields

end Pinflow
