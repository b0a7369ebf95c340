import Pinflow.Text.Words

/-!
# Paths

A path leads from the root, or from wherever one is, part by part to a place. The part
`.` stays where it is and the part `..` goes up to the directory above.
-/

namespace Pinflow

/-- A path. Its parts hold no slash and are not empty. -/
structure Path where
  absolute : Bool
  parts : List String
deriving DecidableEq

namespace Path

/-- Read a path. A slash at the end asks for a directory, as `.` does. -/
def ofText (text : String) : Path :=
  let named := (Text.splitAll '/' text.toList).filter fun piece => !piece.isEmpty
  let closing := if text.toList.getLast? == some '/' then ["."] else []
  ⟨text.toList.head? == some '/', named.map String.ofList ++ closing⟩

def text (path : Path) : String :=
  (if path.absolute then "/" else "") ++ "/".intercalate path.parts

/-- The path that leads nowhere. -/
def isEmpty (path : Path) : Bool := !path.absolute && path.parts.isEmpty

/-- The parts without `.`, which counts only at the start of a relative path. -/
def components (path : Path) : List String :=
  match path.absolute, path.parts with
  | false, "." :: rest => "." :: rest.filter (· != ".")
  | _, parts => parts.filter (· != ".")

/-- The path of the directory above. -/
def parent? (path : Path) : Option Path :=
  if path.components.isEmpty then none else some ⟨path.absolute, path.components.dropLast⟩

/-- Go on by a part, without a look at what is there; `done` holds the parts so far in
reverse. -/
def fold (absolute : Bool) (done : List String) (part : String) : List String :=
  match part, done with
  | ".", done => done
  | "..", [] => if absolute then [] else [".."]
  | "..", last :: rest => if last == ".." then ".." :: last :: rest else rest
  | part, done => part :: done

/-- The shortest path that leads to the same place if no part is a link. -/
def plain (path : Path) : Path :=
  ⟨path.absolute, (path.parts.foldl (fold path.absolute) []).reverse⟩

def name (path : Path) : String := path.parts.getLast?.getD ""

/-- How many bytes a part may have. -/
def maxName : Nat := 255

/-- How many bytes a path may have. -/
def maxLength : Nat := 4095

end Path

end Pinflow
