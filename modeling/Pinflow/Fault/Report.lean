import Pinflow.Fault

/-!
# Faults as values

A fault is reported as its category and its message. A described fault, in turn, is
an object that names a category and gives the texts it needs; a text that is not
there is empty.
-/

namespace Pinflow.Fault

/-- The category under which a fault is reported. -/
def category : Fault → String
  | unknownKind _ => "UnknownNodeType"
  | wiring _ => "InvalidWiring"
  | evaluation .. => "Evaluation"
  | missingInput .. => "MissingInput"
  | cycle .. => "CyclicDependency"
  | breakOutsideLoop _ => "BreakOutsideLoop"
  | stopped _ => "Stopped"
  | debug _ => "Debug"
  | archive _ => "TraceStore"
  | settings _ => "Config"
  | noSettings _ => "ConfigNotFound"
  | io _ => "Io"
  | json _ => "Json"

def toValue (fault : Fault) : Value :=
  .object [("error", .str fault.category), ("message", .str fault.message)]

def described (description : Value) : Fault :=
  let text (key : String) : String := (description.stringField? key).getD ""
  match text "kind" with
  | "UnknownNodeType" => unknownKind (text "message")
  | "InvalidWiring" => wiring (.stated (text "message"))
  | "MissingInput" => missingInput (text "node") (text "pin")
  | "CyclicDependency" => cycle (text "node") (text "path")
  | "BreakOutsideLoop" => breakOutsideLoop (text "node")
  | "Stopped" => stopped (text "message")
  | "Debug" => debug (.stated (text "message"))
  | "TraceStore" => archive (text "message")
  | "Config" => settings (text "message")
  | "ConfigNotFound" => noSettings (text "message")
  | "Io" => io (text "message")
  | "Json" => json (text "message")
  | _ => evaluation (text "node") (.stated (text "message"))

end Pinflow.Fault
