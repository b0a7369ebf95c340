import Pinflow.Proofs.Circuit.Wired

/-!
# Scopes are closed

Whatever goes stale takes all its readers with it. The volatile scope is closed under
data edges, and so is the scope of a loop as far as data nodes are concerned: a data node
that reads from the scope is in the scope.
-/

namespace Pinflow.Circuit

variable {circuit : Circuit} {node loop pin : String} {edge : Edge}

theorem mem_dataArrows (member : edge ∈ circuit.dataEdges) :
    (edge.source.node, edge.target.node) ∈ circuit.dataArrows :=
  List.mem_map.mpr ⟨edge, member, rfl⟩

theorem mem_volatileScope_of_volatile {part : Part} (found : circuit.part? node = some part)
    (volatile : part.kind.volatile = true) : node ∈ circuit.volatileScope := by
  refine Arrows.mem_reach_of_seed (List.mem_map.mpr ⟨part, ?_, id_of_part? found⟩)
  exact List.mem_filter.mpr ⟨mem_of_part? found, volatile⟩

/-- The loop, its body and all that reads from them. -/
def readers (circuit : Circuit) (loop pin : String) : List String :=
  circuit.dataArrows.reach (loop :: (circuit.loopScope loop pin).executed)

theorem mem_derived_iff :
    node ∈ (circuit.loopScope loop pin).derived ↔
      node ∈ circuit.readers loop pin ∧ node ≠ loop ∧
        node ∉ (circuit.loopScope loop pin).executed := by
  simp [loopScope, readers]

theorem loop_mem_readers (loop pin : String) : loop ∈ circuit.readers loop pin :=
  Arrows.mem_reach_of_seed List.mem_cons_self

theorem readers_closed (member : edge ∈ circuit.dataEdges)
    (stale : edge.source.node ∈ circuit.readers loop pin) :
    edge.target.node ∈ circuit.readers loop pin :=
  Arrows.mem_reach_of_arrow stale (mem_dataArrows member)

/-- Control leads to every node of a loop's body, and the loop is not one of them. -/
theorem exists_edge_of_executed (body : node ∈ (circuit.loopScope loop pin).executed) :
    node ≠ loop ∧ ∃ edge ∈ circuit.execEdges, edge.target.node = node := by
  have reached : Arrows.Reached _ _ node := Arrows.mem_reach_iff.mp body
  cases reached with
  | seed member =>
    cases wire : circuit.execTarget? loop pin with
    | none => simp [wire] at member
    | some =>
      simp only [wire] at member
      split at member
      · cases member
      · rename_i other
        obtain rfl := List.mem_singleton.mp member
        exact ⟨fun same => other (beq_iff_eq.mpr same), _, mem_of_execTarget? wire, rfl⟩
  | arrow _ member =>
    obtain ⟨isArrow, other⟩ := List.mem_filter.mp member
    obtain ⟨edge, known, same⟩ := List.mem_map.mp isArrow
    cases same
    exact ⟨bne_iff_ne.mp other, edge, known, rfl⟩

theorem not_contains_loop (circuit : Circuit) (loop pin : String) :
    (circuit.loopScope loop pin).contains loop = false := by
  have outside : loop ∉ (circuit.loopScope loop pin).executed :=
    fun body => (exists_edge_of_executed body).1 rfl
  have notDerived : loop ∉ (circuit.loopScope loop pin).derived :=
    fun derived => (mem_derived_iff.mp derived).2.1 rfl
  simp [LoopScope.contains, outside, notDerived]

namespace Wired

variable (wired : Wired Registry.builtin circuit)
include wired

theorem not_executed_of_data (isData : circuit.isOf Kinds.data node = true) :
    node ∉ (circuit.loopScope loop pin).executed := by
  intro body
  obtain ⟨-, edge, member, rfl⟩ := exists_edge_of_executed body
  rw [wired.not_data_of_exec member] at isData
  cases isData

/-- The data nodes among the readers of a loop are those derived from it. -/
theorem mem_derived_of_data (isLoop : circuit.isOf Kinds.loops loop = true)
    (isData : circuit.isOf Kinds.data node = true) (reads : node ∈ circuit.readers loop pin) :
    node ∈ (circuit.loopScope loop pin).derived := by
  refine mem_derived_iff.mpr ⟨reads, ?_, wired.not_executed_of_data isData⟩
  rintro rfl
  rw [isOf_eq_false (by decide) isLoop] at isData
  cases isData

end Wired

/-- A node and the data nodes that are computed from its outputs. -/
def fed (circuit : Circuit) (node : String) : List String :=
  Arrows.reach (circuit.dataArrows.filter fun arrow => circuit.isOf Kinds.data arrow.2) [node]

theorem self_mem_fed (node : String) : node ∈ circuit.fed node :=
  Arrows.mem_reach_of_seed List.mem_cons_self

theorem fed_closed (member : edge ∈ circuit.dataEdges)
    (isData : circuit.isOf Kinds.data edge.target.node = true)
    (stale : edge.source.node ∈ circuit.fed node) : edge.target.node ∈ circuit.fed node :=
  Arrows.mem_reach_of_arrow stale (List.mem_filter.mpr ⟨mem_dataArrows member, isData⟩)

end Pinflow.Circuit
