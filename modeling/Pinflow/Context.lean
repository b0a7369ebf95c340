import Pinflow.Memo
import Pinflow.Snapshot
import Pinflow.Value.Path

/-!
# Execution context

What one invocation reads and leaves behind: its variables, arguments and event,
the values it asks to have persisted, and its log.
-/

namespace Pinflow

/-- A wish to keep a value beyond the invocation, and the node that has it. -/
structure Intent where
  key : String
  value : Value
  node : String

def Intent.toValue (intent : Intent) : Value :=
  .object [("key", .str intent.key), ("value", intent.value), ("node_id", .str intent.node)]

/-- An intent as text, its parts in the order in which they are declared. -/
def Intent.text (intent : Intent) : String :=
  "\x7b\"key\":" ++ (Value.str intent.key).render ++ ",\"value\":" ++ intent.value.render ++
    ",\"node_id\":" ++ (Value.str intent.node).render ++ "\x7d"

/-- The state an invocation works on. Intents and log lines stand in reverse. -/
structure Context where
  vars : Fields := []
  args : Value := .obj []
  event : Option String := none
  intentsRev : List Intent := []
  linesRev : List String := []

namespace Context

/-- The intents, oldest first. -/
def intents (context : Context) : List Intent := context.intentsRev.reverse

/-- The log lines, oldest first. -/
def lines (context : Context) : List String := context.linesRev.reverse

def lookup? (context : Context) (path : String) : Option Value :=
  context.vars.lookup? path

def assign (context : Context) (path : String) (value : Value) : Context :=
  { context with vars := context.vars.assign path value }

def persist (context : Context) (intent : Intent) : Context :=
  { context with intentsRev := intent :: context.intentsRev }

def log (context : Context) (line : String) : Context :=
  { context with linesRev := line :: context.linesRev }

def eventValue (context : Context) : Value :=
  match context.event with
  | some event => .str event
  | none => .null

def intentsText (context : Context) : String :=
  "[" ++ ",".intercalate (context.intents.map Intent.text) ++ "]"

def snapshot (context : Context) (memo : Memo) (most : Nat) : Fields :=
  Fields.ofList [
    ("variables", (Value.obj context.vars).bounded most),
    ("args", context.args.bounded most),
    ("event", context.eventValue),
    ("persist_intents", boundedText context.intentsText most),
    ("memo", (Value.obj memo.toFields).bounded most)]

end Context

end Pinflow
