import Pinflow.Json.Record
import Pinflow.Json.Printer
import Pinflow.Trace.Basic

/-!
# Traces as JSON

The stored form of traces and their parts, in both directions. The text of a trace has the
fields of every record in declared order.
-/

namespace Pinflow

open Json

def optionalString : Option String → Value
  | some s => .str s
  | none => .null

def optionalNat : Option Nat → Value
  | some n => .ofNat n
  | none => .null

namespace Instant

def reader : Reader Instant := fun depth tree => (Reader.string depth tree).bind read?

end Instant

namespace Step

def reader : Reader Step :=
  .record [.required "sequence", .required "node_id", .required "kind", .defaulted "pin",
      .required "inputs", .required "outputs", .required "duration_us", .defaulted "error"]
    fun depth slots =>
      match slots with
      | [some sequence, some node, some kind, pin, some inputs, some outputs, some micros, error] =>
        do
          let sequence ← Reader.nat depth sequence
          let node ← Reader.string depth node
          let kind ← Reader.choice StepKind.ofName? depth kind
          let pin ← (Reader.optional Reader.string).orElse none depth pin
          let inputs ← Reader.value depth inputs
          let outputs ← Reader.value depth outputs
          let micros ← Reader.nat depth micros
          let error ← (Reader.optional Reader.string).orElse none depth error
          some ⟨sequence, node, kind, pin, inputs, outputs, micros, error⟩
      | _ => none

/-- A field that is left out when there is nothing to say. -/
def entry (key : String) : Option String → List (String × Value)
  | some s => [(key, .str s)]
  | none => []

/-- The parts of a step that do not depend on how long it took. -/
def facts (step : Step) : List (String × Value) :=
  [("sequence", .ofNat step.sequence), ("node_id", .str step.node), ("kind", .str step.kind.name),
    ("inputs", step.inputs), ("outputs", step.outputs)] ++ entry "pin" step.pin ++
    entry "error" step.error

def factsValue (step : Step) : Value := .object step.facts

def toValue (step : Step) : Value :=
  .object (("duration_us", .ofNat step.micros) :: step.facts)

/-- The fields in declared order. -/
def entries (step : Step) : List (String × Value) :=
  [("sequence", .ofNat step.sequence), ("node_id", .str step.node), ("kind", .str step.kind.name)] ++
    entry "pin" step.pin ++
    [("inputs", step.inputs), ("outputs", step.outputs), ("duration_us", .ofNat step.micros)] ++
    entry "error" step.error

end Step

namespace Note

def reader : Reader Note :=
  .record [.nullable "after_sequence", .required "node_id", .required "message"]
    fun depth slots =>
      match slots with
      | [after, some node, some message] => do
        let after ← (Reader.optional Reader.nat).orElse none depth after
        let node ← Reader.string depth node
        let message ← Reader.string depth message
        some ⟨after, node, message⟩
      | _ => none

/-- The fields in declared order. -/
def entries (note : Note) : List (String × Value) :=
  [("after_sequence", optionalNat note.after), ("node_id", .str note.node),
    ("message", .str note.message)]

def toValue (note : Note) : Value := .object note.entries

end Note

namespace Trace

def reader : Reader Trace :=
  .record [.required "id", .required "graph_id", .required "invocation_id",
      .required "started_at", .defaulted "finished_at", .required "status", .defaulted "error",
      .required "steps", .defaulted "notes"]
    fun depth slots =>
      match slots with
      | [some id, some graph, some invocation, some started, finished, some status, error,
          some steps, notes] => do
        let id ← Reader.string depth id
        let graph ← Reader.string depth graph
        let invocation ← Reader.string depth invocation
        let started ← Instant.reader depth started
        let finished ← (Reader.optional Instant.reader).orElse none depth finished
        let status ← Reader.choice TraceStatus.ofName? depth status
        let error ← (Reader.optional Reader.string).orElse none depth error
        let steps ← Reader.list Step.reader depth steps
        let notes ← (Reader.list Note.reader).orElse [] depth notes
        some ⟨id, graph, invocation, started, finished, status, error, steps, notes⟩
      | _ => none

def toValue (trace : Trace) : Value :=
  .object [("id", .str trace.id), ("graph_id", .str trace.graph),
    ("invocation_id", .str trace.invocation), ("started_at", .str trace.started.text),
    ("finished_at", optionalString (trace.finished.map Instant.text)),
    ("status", .str trace.status.name), ("error", optionalString trace.error),
    ("steps", .arr (trace.steps.map Step.toValue)), ("notes", .arr (trace.notes.map Note.toValue))]

/-- The parts of a trace that depend neither on ids nor on time. -/
def facts (trace : Trace) : Value :=
  .object [("graph_id", .str trace.graph), ("status", .str trace.status.name),
    ("error", optionalString trace.error), ("finished", .bool trace.finished.isSome),
    ("steps", .arr (trace.steps.map Step.factsValue)), ("notes", .arr (trace.notes.map Note.toValue))]

def read? (text : String) : Option Trace := do
  let tree ← Raw.read? text
  reader maxDepth tree

/-- Read a trace from a value that holds its stored form. -/
def ofValue? (value : Value) : Option Trace := reader maxDepth (.ofValue value)

/-- The stored form, with the fields in declared order. -/
def record (trace : Trace) : Value :=
  .obj [("id", .str trace.id), ("graph_id", .str trace.graph),
    ("invocation_id", .str trace.invocation), ("started_at", .str trace.started.text),
    ("finished_at", optionalString (trace.finished.map Instant.text)),
    ("status", .str trace.status.name), ("error", optionalString trace.error),
    ("steps", .arr (trace.steps.map fun step => .obj step.entries)),
    ("notes", .arr (trace.notes.map fun note => .obj note.entries))]

/-- The JSON text of a trace. -/
def render (trace : Trace) : String := trace.record.render

end Trace

end Pinflow
