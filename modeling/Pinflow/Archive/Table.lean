import Pinflow.Fault
import Pinflow.Json.Limit
import Pinflow.Trace.Text

/-!
# Traces in a table

A table with one row per trace: its id, its graph, when it started, and the trace as
JSON text. A trace that comes again loses its row and gets a new one.
-/

namespace Pinflow

structure TraceRow where
  id : String
  graph : String
  /-- The start as text; rows are ordered by this text. -/
  started : String
  /-- The trace as JSON. -/
  body : String

/-- The rows, earliest written first. -/
structure TableArchive where
  rows : List TraceRow := []

def TraceRow.ofTrace (trace : Trace) : TraceRow :=
  ⟨trace.id, trace.graph, trace.started.offsetText, trace.render⟩

namespace TableArchive

def row? (archive : TableArchive) (id : String) : Option TraceRow :=
  archive.rows.find? fun row => row.id == id

/-- Delete the row of a trace; say whether there was one. -/
def delete (archive : TableArchive) (id : String) : Bool × TableArchive :=
  ((archive.row? id).isSome, ⟨archive.rows.filter fun row => row.id != id⟩)

/-- Write a trace. -/
def persist (archive : TableArchive) (trace : Trace) : TableArchive :=
  ⟨(archive.delete trace.id).2.rows ++ [.ofTrace trace]⟩

/-- What is wrong with a row that cannot be read back. -/
def corruption (row : TraceRow) : Fault :=
  let reason := match Json.refusedAt? row.body with
    | some column => s!": recursion limit exceeded at line 1 column {column}"
    | none => ""
  .archive ("Corrupt trace " ++ row.id ++ reason)

def load (archive : TableArchive) (id : String) : Except Fault (Option Trace) :=
  match archive.row? id with
  | none => .ok none
  | some row =>
    match Trace.read? row.body with
    | some trace => .ok (some trace)
    | none => .error (corruption row)

/-- A limit taken as a signed number of 64 bits; a negative one is no limit. -/
def limited {α : Type} (limit : Nat) (rows : List α) : List α :=
  if limit % unsignedBound < signedBound then rows.take (limit % unsignedBound) else rows

/-- The ids of the traces of a graph, latest start first; of several with one start,
the last written first. -/
def list (archive : TableArchive) (graph : String) (limit : Nat) : List String :=
  let rows := archive.rows.reverse.filter fun row => row.graph == graph
  let sorted := rows.mergeSort fun a b => b.started ≤ a.started
  (limited limit sorted).map TraceRow.id

/-- What the text of every table begins with. -/
def heading : String := "trace table\n"

def text (archive : TableArchive) : String :=
  heading ++ (Value.arr (archive.rows.map fun row =>
    .arr [.str row.id, .str row.graph, .str row.started, .str row.body])).render

def isTable (text : String) : Bool := heading.toList.isPrefixOf text.toList

/-- Read a row from the list of its cells. -/
def rowOfValue? : Value → Option TraceRow
  | .arr [.str id, .str graph, .str started, .str body] => some ⟨id, graph, started, body⟩
  | _ => none

def ofText? (text : String) : Option TableArchive :=
  if text.utf8ByteSize ≤ 1 then some {}
  else if isTable text then do
    let value ← Value.read? (String.ofList (text.toList.drop heading.length))
    let items ← value.asList?
    let rows ← items.mapM rowOfValue?
    some ⟨rows⟩
  else none

end TableArchive

end Pinflow
