import Pinflow.Json.Printer
import Pinflow.Trace.Basic

/-!
# Steps as text

How a step, a note and a whole trace are shown to a person.
-/

namespace Pinflow

def StepKind.word : StepKind → String
  | .execution => "exec"
  | .evaluation => "eval"
  | .traversal => "next"

/-- A step in three lines. A traversal takes no time and shows none. -/
def Step.text (step : Step) : String :=
  let pin := match step.pin with
    | some pin => "." ++ pin
    | none => ""
  let time := if step.kind == .traversal then "" else s!" ({step.micros}us)"
  let error := match step.error with
    | some error => " ERROR: " ++ error
    | none => ""
  s!"#{step.sequence} " ++ step.kind.word ++ " " ++ step.node ++ pin ++ time ++ error ++
    "\n  in:  " ++ step.inputs.render ++ "\n  out: " ++ step.outputs.render

/-- A remark in one line. -/
def Note.text (note : Note) : String :=
  let after := match note.after with
    | some sequence => s!"#{sequence}"
    | none => "start"
  "Note after " ++ after ++ ": [" ++ note.node ++ "] " ++ note.message

/-- The lines above the steps of a trace. -/
def Trace.heading (trace : Trace) : List String :=
  let error := match trace.error with
    | some error => ["Error: " ++ error]
    | none => []
  [s!"Trace {trace.id} of graph {trace.graph} ({trace.steps.length} steps, " ++
      trace.status.title ++ ")"] ++ error ++ trace.notes.map Note.text

end Pinflow
