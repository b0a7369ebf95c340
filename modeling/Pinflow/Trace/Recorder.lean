import Pinflow.Trace.Basic
import Pinflow.Walk.Basic

/-!
# Recording

A recorder collects the steps of a trace. A step gets its number when it begins, so
an executor stands before the evaluations it causes. `Recorder.observe` is how a
recorder listens to a walk: it remembers which steps are still open, and a supplied
input belongs to the innermost open step of its node.
-/

namespace Pinflow

/-- The steps and notes recorded so far, with values bounded to `most` bytes. The
notes stand in reverse; open steps, innermost first, are pairs of node and number. -/
structure Recorder where
  most : Nat
  steps : Array Step := #[]
  notesRev : List Note := []
  opened : List (String × Nat) := []

namespace Recorder

def begin (recorder : Recorder) (node : String) (kind : StepKind) (pin : Option String)
    (inputs : Value) : Recorder :=
  let step : Step := {
    sequence := recorder.steps.size, node, kind, pin, inputs := inputs.bounded recorder.most }
  { recorder with steps := recorder.steps.push step }

def finish (recorder : Recorder) (sequence : Nat) (outputs : Value) (error : Option Fault) :
    Recorder :=
  { recorder with
    steps := recorder.steps.modify sequence fun step =>
      { step with outputs := outputs.bounded recorder.most, error := error.map Fault.message } }

/-- The inputs of a step with one more pin. Inputs that are no object make way; pins
that are no object stay. -/
def withPin (inputs : Value) (pin : String) (value : Value) : Value :=
  let fields : Fields := match inputs with
    | .obj fields => fields
    | _ => []
  match (fields.get? "pins").getD (.obj []) with
  | .obj pins => .obj (fields.insert "pins" (.obj (Fields.insert pins pin value)))
  | _ => .obj fields

def supply (recorder : Recorder) (sequence : Nat) (pin : String) (value : Value) : Recorder :=
  { recorder with
    steps := recorder.steps.modify sequence fun step =>
      { step with inputs := withPin step.inputs pin (value.bounded recorder.most) } }

/-- Record that control passed along an edge. -/
def traversal (recorder : Recorder) (source target : PinRef) : Recorder :=
  let sequence := recorder.steps.size
  (recorder.begin source.node .traversal (some source.pin) .null).finish sequence
    (.object [("target", .str target.text)]) none

/-- Record a remark. -/
def note (recorder : Recorder) (node message : String) : Recorder :=
  let after := recorder.steps.back?.map Step.sequence
  { recorder with notesRev := ⟨after, node, message⟩ :: recorder.notesRev }

/-- Open a step that `begin` has just begun. -/
def opening (recorder : Recorder) (node : String) : Recorder :=
  { recorder with opened := (node, recorder.steps.size - 1) :: recorder.opened }

/-- Close the innermost open step. -/
def closing (recorder : Recorder) (outputs : Value) (error : Option Fault) : Recorder :=
  match recorder.opened with
  | [] => recorder
  | (_, sequence) :: rest => { recorder.finish sequence outputs error with opened := rest }

/-- The variables of a walk, as executions record them. -/
def recordedVars (walker : Walker) : Value := .object [("variables", .obj walker.context.vars)]

/-- Listen to a moment of a walk. -/
def observe (recorder : Recorder) (moment : Moment) : Recorder :=
  match moment.happening with
  | .evaluating source config =>
    (recorder.begin source.node .evaluation (some source.pin)
      (.object [("config", .obj config)])).opening source.node
  | .evaluated _ (.ok value) => recorder.closing value none
  | .evaluated _ (.error fault) => recorder.closing .null (some fault)
  | .executing node =>
    (recorder.begin node .execution none (recordedVars moment.walker)).opening node
  | .executed _ (.ok _) => recorder.closing (recordedVars moment.walker) none
  | .executed _ (.error fault) => recorder.closing (recordedVars moment.walker) (some fault)
  | .supplied node pin value =>
    match recorder.opened.find? fun entry => entry.1 == node with
    | some (_, sequence) => recorder.supply sequence pin value
    | none => recorder
  | .followed source target => recorder.traversal source target
  | .noted node message => recorder.note node message
  | _ => recorder

def markLast (steps : Array Step) (message : String) : Array Step :=
  steps.modify (steps.size - 1) fun step => { step with error := some message }

/-- End the recording. The error of a failed run is put on the last step unless some
step carries an error already. -/
def finalize (recorder : Recorder) (head : Trace) (finished : Instant) (error : Option Fault) :
    Trace :=
  let notes := recorder.notesRev.reverse
  match error with
  | none =>
    { head with
      finished := some finished, status := .completed, steps := recorder.steps.toList, notes }
  | some fault =>
    let message := fault.message
    let steps :=
      if recorder.steps.any fun step => step.error.isSome then recorder.steps
      else markLast recorder.steps message
    { head with
      finished := some finished, status := .error, error := some message, steps := steps.toList,
      notes }

end Recorder

end Pinflow
