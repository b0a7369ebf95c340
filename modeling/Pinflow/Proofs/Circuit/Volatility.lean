import Pinflow.Proofs.Circuit.Exactness
import Pinflow.Proofs.Walk.Memo
import Pinflow.Walk.Serve

/-!
# What a write of a variable makes stale

A write of a variable takes out of the memo what volatile nodes gave and what was computed from
it, as far as the data edges of the graph as authored lead, and leaves everything else there.
-/

namespace Pinflow

namespace Graph

variable (graph : Graph) (registry : Registry)

def Volatile (id : String) : Prop :=
  ∃ node ∈ graph.nodes, node.id = id ∧
    ∃ kind, registry.find? node.kind = some kind ∧ kind.volatile = true

/-- The node is volatile, or data comes to it from one that is. -/
def Unsettled (node : String) : Prop :=
  ∃ source, graph.Volatile registry source ∧
    Relation.ReflTransGen (graph.Feeds registry) source node

end Graph

namespace Circuit

variable {registry : Registry} {graph : Graph} {circuit : Circuit} {node : String}

/-- Where the search for the volatile scope starts. -/
def volatileNodes (circuit : Circuit) : List String :=
  (circuit.parts.filter (·.kind.volatile)).map (·.node.id)

theorem mem_volatileNodes_iff (loaded : load registry graph = .ok circuit) :
    node ∈ circuit.volatileNodes ↔ graph.Volatile registry node := by
  have parts := (indexes_of_load loaded).parts
  rw [volatileNodes, Graph.Volatile]
  generalize graph.nodes = authored, circuit.parts = bound at parts
  induction parts with
  | nil => simp
  | @cons authored part nodes parts binds _ ih =>
    obtain ⟨rfl, found, -⟩ := binds
    simp only [List.mem_cons, or_and_right, exists_or, exists_eq_left, ← ih, found]
    cases volatile : part.kind.volatile <;> simp [volatile, eq_comm (a := node)]

theorem mem_volatileScope_iff_path (loaded : load registry graph = .ok circuit) :
    node ∈ circuit.volatileScope ↔ graph.Unsettled registry node := by
  show node ∈ circuit.dataArrows.reach circuit.volatileNodes ↔ _
  have arrows : (fun a b => (a, b) ∈ circuit.dataArrows) = graph.Feeds registry := by
    funext a b
    exact propext (mem_dataArrows_iff loaded)
  simp only [Arrows.mem_reach_iff, Arrows.reached_iff, mem_volatileNodes_iff loaded, arrows]
  rfl

/-- The scope of a write is exact, however the data edges run, and its search ends after at most
one visit for each volatile node and each data edge. -/
theorem write_forgets_unsettled (loaded : load registry graph = .ok circuit) :
    (∀ node, node ∈ circuit.volatileScope ↔ graph.Unsettled registry node) ∧
      (∃ visits ≤ circuit.volatileNodes.length + circuit.dataEdges.length,
        circuit.dataArrows.Searches visits [] circuit.volatileNodes circuit.volatileScope) ∧
      ∀ invocation capability maxIterations maxSnapshot path value walker, ∃ memo : Memo,
        let after : Walker := { walker with context := walker.context.assign path value, memo }
        (Walk.assign (.of circuit invocation capability maxIterations maxSnapshot) path value).run
            walker =
          Dialogue.ask (Query.announce ⟨.assigned path value, after⟩) (fun _ => .done ((), after)) ∧
        ∀ ref, (graph.Unsettled registry ref.node → memo.get? ref = none) ∧
          (¬ graph.Unsettled registry ref.node → memo.get? ref = walker.memo.get? ref) := by
  refine ⟨fun _ => mem_volatileScope_iff_path loaded, ?_, ?_⟩
  · obtain ⟨visits, few, searches⟩ :=
      Arrows.searches_reach circuit.dataArrows circuit.volatileNodes
    exact ⟨visits, Nat.le_trans few (by simp [dataArrows]), searches⟩
  · intro invocation capability maxIterations maxSnapshot path value walker
    refine ⟨walker.memo.invalidate circuit.volatileScope, rfl, fun ref => ?_⟩
    rw [Memo.get?_invalidate, ← mem_volatileScope_iff_path loaded]
    exact ⟨fun stale => if_pos (List.contains_iff_mem.mpr stale),
      fun settled => if_neg (mt List.contains_iff_mem.mp settled)⟩

/-- A variable is read into a circle of two arrays, and a constant stands beside it. -/
def circlingRead : Graph where
  id := "g"
  nodes := [
    { id := "var", kind := "get_variable", config := [("name", .str "n")] },
    { id := "one", kind := "make_array" }, { id := "two", kind := "make_array" },
    { id := "still", kind := "constant" }]
  edges := [⟨⟨"var", "value"⟩, ⟨"one", "item_0"⟩⟩, ⟨⟨"one", "array"⟩, ⟨"two", "item_0"⟩⟩,
    ⟨⟨"two", "array"⟩, ⟨"one", "item_1"⟩⟩]

theorem write_forgets_circlingRead :
    (ofGraph circlingRead).volatileScope = ["two", "one", "var"] ∧
      circlingRead.Unsettled Registry.builtin "one" ∧
      ¬ circlingRead.Unsettled Registry.builtin "still" := by
  have loaded : load Registry.builtin circlingRead = .ok (ofGraph circlingRead) := rfl
  have scope : (ofGraph circlingRead).volatileScope = ["two", "one", "var"] := rfl
  have stale := (write_forgets_unsettled loaded).1
  rw [scope] at stale
  refine ⟨scope, (stale "one").mp (by decide), fun reached => ?_⟩
  exact absurd ((stale "still").mpr reached) (by decide)

end Circuit

end Pinflow
