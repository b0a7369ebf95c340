import Pinflow.Fault
import Pinflow.Json.Raw
import Pinflow.Text.Blank
import Pinflow.Text.Word
import Pinflow.Value.Comparison
import Pinflow.Value.Path

/-!
# Breakpoint conditions

A condition is written `path operator literal`. The path is the longest stretch of
word characters and dots after which the rest still reads as an operator and a
literal; the literal is JSON if it can be read so, and otherwise a plain string.
-/

namespace Pinflow

/-- A condition on the variables of an invocation. -/
structure Condition where
  source : String
  path : String
  op : Comparison
  literal : Value

namespace Condition

def isPathStart (c : Char) : Bool := c.isAlpha || c == '_'

def isPathChar (c : Char) : Bool := Text.isWord c || c == '.'

/-- What stands behind a fixed text. -/
def after? (text cs : List Char) : Option (List Char) :=
  if text.isPrefixOf cs then some (cs.drop text.length) else none

/-- The symbols in the order in which they are tried: a longer one before a shorter
one that begins it. -/
def symbols : List (String × Comparison) :=
  [("==", .eq), ("!=", .ne), (">=", .ge), ("<=", .le), (">", .gt), ("<", .lt)]

/-- The readings of an operator at the front of the text, in order of preference.
The word operator has to stand apart from the characters around it. -/
def operators (before : Char) (cs : List Char) : List (Comparison × List Char) :=
  let bySymbol := symbols.filterMap fun (symbol, op) =>
    (after? symbol.toList cs).map (op, ·)
  let byWord := match after? "contains".toList cs with
    | some rest =>
      if Text.isWord before || (rest.head?.any Text.isWord) then [] else [(.contains, rest)]
    | none => []
  bySymbol ++ byWord

/-- The literal behind an operator: what is left between the blanks, which must be on
one line. Of nothing but blanks, the last one that is no line break is the literal. -/
def literal? (cs : List Char) : Option (List Char) :=
  match Text.trim cs with
  | [] => (cs.reverse.find? fun c => c != '\n').map ([·])
  | text => if text.contains '\n' then none else some text

def literalValue (cs : List Char) : Value :=
  let text := String.ofList cs
  (Value.read? text).getD (.str text)

/-- Read operator and literal behind a path, given the last character of the path. -/
def rest? (last : Char) (cs : List Char) : Option (Comparison × Value) :=
  let cs' := Text.trimLeft cs
  let before := if cs'.length < cs.length then ' ' else last
  (operators before cs').findSome? fun (op, cs) =>
    (literal? cs).map fun text => (op, literalValue text)

/-- Read a condition. -/
def parse (source : String) : Except Fault Condition :=
  let refused := Except.error (Fault.debug (.unparseable source))
  match Text.trimLeft source.toList with
  | [] => refused
  | first :: cs =>
    if isPathStart first then
      let run := cs.takeWhile isPathChar
      let found := (List.range (run.length + 1)).reverse.findSome? fun (n : Nat) =>
        let path := first :: cs.take n
        (rest? (path.getLastD first) (cs.drop n)).map fun (op, literal) =>
          Condition.mk source (String.ofList path) op literal
      match found with
      | some condition => .ok condition
      | none => refused
    else refused

/-- Does the condition hold of the variables? A variable that is not there differs
from everything and is otherwise no match. -/
def holds (condition : Condition) (vars : Fields) : Bool :=
  match vars.lookup? condition.path with
  | some value => condition.op.apply value condition.literal
  | none => condition.op == .ne

def toValue (condition : Condition) : Value :=
  .object [("source", .str condition.source), ("path", .str condition.path),
    ("op", .str condition.op.name), ("literal", condition.literal)]

end Condition

end Pinflow
