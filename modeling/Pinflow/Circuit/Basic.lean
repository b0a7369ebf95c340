import Pinflow.Circuit.Reach
import Pinflow.Kind

/-!
# Circuits

A circuit is a graph whose nodes are bound to their kinds and whose edges are known
to connect fitting pins: control edges by the output they leave, data edges by the
input they feed. `Circuit.load` builds one, or names the first thing wrong with the
graph.
-/

namespace Pinflow

structure Part where
  node : Node
  kind : Kind
  schema : Schema

/-- A checked graph. -/
structure Circuit where
  id : String
  name : String
  parts : List Part
  execEdges : List Edge
  dataEdges : List Edge

namespace Circuit

def part? (circuit : Circuit) (id : String) : Option Part :=
  circuit.parts.find? fun part => part.node.id == id

def contains (circuit : Circuit) (id : String) : Bool := (circuit.part? id).isSome

def part (circuit : Circuit) (id : String) : Except Fault Part :=
  match circuit.part? id with
  | some part => .ok part
  | none => .error (.wiring (.notInGraph id circuit.id))

/-- The output that feeds a data input. -/
def incoming? (circuit : Circuit) (node pin : String) : Option PinRef :=
  (circuit.dataEdges.find? fun edge => edge.target = ⟨node, pin⟩).map Edge.source

/-- The input that an exec output leads to. -/
def execTarget? (circuit : Circuit) (node pin : String) : Option PinRef :=
  (circuit.execEdges.find? fun edge => edge.source = ⟨node, pin⟩).map Edge.target

def edgeCount (circuit : Circuit) : Nat := circuit.dataEdges.length + circuit.execEdges.length

def bindNode (registry : Registry) (parts : List Part) (node : Node) :
    Except Fault (List Part) :=
  if parts.any fun part => part.node.id == node.id then
    .error (.wiring (.duplicateNode node.id))
  else do
    let kind ← registry.lookup node.kind
    match kind.pins node.config with
    | .ok schema => .ok (parts ++ [⟨node, kind, schema⟩])
    | .error fault =>
      if fault.isConfiguration then .error fault
      else .error (.wiring (.pinsFailed node.id fault.message))

/-- The edges accepted so far, control and data apart. -/
structure Wires where
  exec : List Edge := []
  data : List Edge := []

/-- Accept an edge. An exec output leads to one place, and a data input is fed from
one place. -/
def addEdge (parts : List Part) (wires : Wires) (edge : Edge) : Except Fault Wires := do
  let find (id : String) := parts.find? fun part => part.node.id == id
  let some source := find edge.source.node
    | .error (.wiring (.missingSource edge.source.node))
  let some target := find edge.target.node
    | .error (.wiring (.missingTarget edge.target.node))
  let some output := source.schema.output? edge.source.pin
    | .error (.wiring (.noOutputPin edge.source))
  let some input := target.schema.input? edge.target.pin
    | .error (.wiring (.noInputPin edge.target))
  if !output.type.feeds input.type then
    .error (.wiring (.typeMismatch edge.source output.type edge.target input.type))
  else if output.type.isExec then
    if wires.exec.any fun other => other.source = edge.source then
      .error (.wiring (.execWiredTwice edge.source))
    else .ok { wires with exec := wires.exec ++ [edge] }
  else if wires.data.any fun other => other.target = edge.target then
    .error (.wiring (.dataWiredTwice edge.target))
  else .ok { wires with data := wires.data ++ [edge] }

/-- Check a graph against a registry. Nodes are bound in authored order, then edges
are accepted in authored order. -/
def load (registry : Registry) (graph : Graph) : Except Fault Circuit := do
  let parts ← graph.nodes.foldlM (bindNode registry) []
  let wires ← graph.edges.foldlM (addEdge parts) {}
  .ok { id := graph.id, name := graph.name, parts, execEdges := wires.exec, dataEdges := wires.data }

end Circuit

end Pinflow
