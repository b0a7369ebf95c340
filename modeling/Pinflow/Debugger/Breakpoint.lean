import Pinflow.Condition

/-!
# Breakpoints

A breakpoint belongs to a node of a graph and serves every invocation of that graph.
It may have a condition on the variables, and it counts the visits that it stopped.
-/

namespace Pinflow

structure Breakpoint where
  graph : String
  node : String
  enabled : Bool := true
  condition : Option Condition := none
  hits : Nat := 0

namespace Breakpoint

/-- Does the breakpoint stop a visit with these variables? -/
def stops (breakpoint : Breakpoint) (vars : Fields) : Bool :=
  breakpoint.enabled && breakpoint.condition.all fun condition => condition.holds vars

def isAt (breakpoint : Breakpoint) (graph node : String) : Bool :=
  breakpoint.graph == graph && breakpoint.node == node

def toValue (breakpoint : Breakpoint) : Value :=
  let condition := match breakpoint.condition with
    | some condition => condition.toValue
    | none => .null
  .object [("node_id", .str breakpoint.node), ("enabled", .bool breakpoint.enabled),
    ("condition", condition), ("hit_count", .ofNat breakpoint.hits)]

end Breakpoint

/-- Breakpoints, at most one per node of a graph. -/
abbrev Breakpoints := List Breakpoint

namespace Breakpoints

def find? (breakpoints : Breakpoints) (graph node : String) : Option Breakpoint :=
  List.find? (fun breakpoint : Breakpoint => breakpoint.isAt graph node) breakpoints

/-- Take a breakpoint away. -/
def remove (breakpoints : Breakpoints) (graph node : String) : Breakpoints :=
  breakpoints.filter fun breakpoint => !breakpoint.isAt graph node

def set (breakpoints : Breakpoints) (breakpoint : Breakpoint) : Breakpoints :=
  breakpoints.remove breakpoint.graph breakpoint.node ++ [breakpoint]

def update (breakpoints : Breakpoints) (graph node : String) (f : Breakpoint → Breakpoint) :
    Breakpoints :=
  breakpoints.map fun breakpoint => if breakpoint.isAt graph node then f breakpoint else breakpoint

def ofGraph (breakpoints : Breakpoints) (graph : String) : List Breakpoint :=
  (breakpoints.filter fun breakpoint => breakpoint.graph == graph).mergeSort
    fun a b => a.node ≤ b.node

/-- Control is about to enter a node: if a breakpoint stops it, count the hit and give
the new count. -/
def visit (breakpoints : Breakpoints) (graph node : String) (vars : Fields) :
    Option Nat × Breakpoints :=
  match breakpoints.find? graph node with
  | some breakpoint =>
    if breakpoint.stops vars then
      (some (breakpoint.hits + 1),
        breakpoints.update graph node fun breakpoint =>
          { breakpoint with hits := breakpoint.hits + 1 })
    else (none, breakpoints)
  | none => (none, breakpoints)

end Breakpoints

end Pinflow
