import Pinflow.Circuit.Basic

/-!
# Scopes

Which remembered outputs go stale. Writing a variable affects the volatile nodes and
all that read from them; starting a loop's body again affects the nodes the body can
reach and all that read from those or from the loop.
-/

namespace Pinflow

/-- What a new iteration of a loop affects: body nodes, whose outputs are written
when they run, and data nodes, whose outputs are computed on demand. -/
structure LoopScope where
  executed : List String
  derived : List String

namespace LoopScope

def contains (scope : LoopScope) (node : String) : Bool :=
  scope.executed.contains node || scope.derived.contains node

end LoopScope

namespace Circuit

/-- From each node to the nodes that read its data. -/
def dataArrows (circuit : Circuit) : Arrows :=
  circuit.dataEdges.map fun edge => (edge.source.node, edge.target.node)

/-- From each node to the nodes that control can pass to. -/
def execArrows (circuit : Circuit) : Arrows :=
  circuit.execEdges.map fun edge => (edge.source.node, edge.target.node)

/-- The volatile nodes and everything that reads from them. -/
def volatileScope (circuit : Circuit) : List String :=
  let volatile := circuit.parts.filter fun part => part.kind.volatile
  circuit.dataArrows.reach (volatile.map fun part => part.node.id)

/-- What a new iteration of the loop whose body starts at a pin affects. The loop
itself is not part of its scope. -/
def loopScope (circuit : Circuit) (loop pin : String) : LoopScope :=
  let inside : Arrows := circuit.execArrows.filter fun arrow => arrow.2 != loop
  let start := match circuit.execTarget? loop pin with
    | some target => if target.node == loop then [] else [target.node]
    | none => []
  let executed := inside.reach start
  let readers := circuit.dataArrows.reach (loop :: executed)
  { executed
    derived := readers.filter fun node => node != loop && !executed.contains node }

end Circuit

end Pinflow
