import Pinflow.Fault
import Pinflow.Json.Record

/-!
# Graphs as JSON

`Graph.read` and `Graph.render` are the two directions of the stored form. The text has the
fields of every record in declared order; `Graph.toValue` is the same as a value.
-/

namespace Pinflow

open Json

namespace PinRef

def reader : Reader PinRef :=
  .record [.required "node", .required "pin"] fun depth slots =>
    match slots with
    | [some node, some pin] => do
      let node ← Reader.string depth node
      let pin ← Reader.string depth pin
      some ⟨node, pin⟩
    | _ => none

def toValue (ref : PinRef) : Value :=
  .object [("node", .str ref.node), ("pin", .str ref.pin)]

end PinRef

namespace Edge

def reader : Reader Edge :=
  .record [.required "source", .required "target"] fun depth slots =>
    match slots with
    | [some source, some target] => do
      let source ← PinRef.reader depth source
      let target ← PinRef.reader depth target
      some ⟨source, target⟩
    | _ => none

def toValue (edge : Edge) : Value :=
  .object [("source", edge.source.toValue), ("target", edge.target.toValue)]

end Edge

namespace Node

/-- A position is exactly two numbers. -/
def positionReader : Reader (Float × Float)
  | depth + 1, .list [x, y] => do
    let x ← Reader.float depth x
    let y ← Reader.float depth y
    some (x, y)
  | _, _ => none

def reader : Reader Node :=
  .record [.required "id", .required "kind", .defaulted "config", .defaulted "position"]
    fun depth slots =>
      match slots with
      | [some id, some kind, config, position] => do
        let id ← Reader.string depth id
        let kind ← Reader.string depth kind
        let config ← Reader.fields.orElse [] depth config
        let position ← (Reader.optional positionReader).orElse none depth position
        some ⟨id, kind, config, position⟩
      | _ => none

/-- The fields in declared order. A position is left out when there is none. -/
def entries (node : Node) : List (String × Value) :=
  let position := match node.position with
    | some (x, y) => [("position", Value.arr [.float x, .float y])]
    | none => []
  [("id", .str node.id), ("kind", .str node.kind), ("config", .obj node.config)] ++ position

def toValue (node : Node) : Value := .object node.entries

end Node

def Pin.toValue (pin : Pin) : Value :=
  .object [("id", .str pin.id), ("pin_type", .str pin.type.name),
    ("direction", .str pin.direction.name), ("required", .bool pin.required),
    ("default", pin.default.getD .null)]

def Schema.toValue (schema : Schema) : Value :=
  .object [("inputs", .arr (schema.inputs.map Pin.toValue)),
    ("outputs", .arr (schema.outputs.map Pin.toValue))]

namespace Graph

def reader : Reader Graph :=
  .record [.required "id", .defaulted "name", .defaulted "nodes", .defaulted "edges"]
    fun depth slots =>
      match slots with
      | [some id, name, nodes, edges] => do
        let id ← Reader.string depth id
        let name ← Reader.string.orElse "" depth name
        let nodes ← (Reader.list Node.reader).orElse [] depth nodes
        let edges ← (Reader.list Edge.reader).orElse [] depth edges
        some ⟨id, name, nodes, edges⟩
      | _ => none

def read (text : String) : Except Fault Graph :=
  match (Raw.read? text).bind (reader maxDepth) with
  | some graph => .ok graph
  | none => .error (.wiring .unreadable)

def toValue (graph : Graph) : Value :=
  .object [("id", .str graph.id), ("name", .str graph.name),
    ("nodes", .arr (graph.nodes.map Node.toValue)), ("edges", .arr (graph.edges.map Edge.toValue))]

/-- The stored form, with the fields in declared order. -/
def record (graph : Graph) : Value :=
  .obj [("id", .str graph.id), ("name", .str graph.name),
    ("nodes", .arr (graph.nodes.map fun node => .obj node.entries)),
    ("edges", .arr (graph.edges.map Edge.toValue))]

/-- The JSON text of a graph. -/
def render (graph : Graph) : String := graph.record.render

end Graph

end Pinflow
