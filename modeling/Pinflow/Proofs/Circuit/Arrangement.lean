import Mathlib.Data.List.Perm.Basic
import Pinflow.Proofs.Circuit.Loading
import Pinflow.Proofs.Circuit.Scope

/-!
# Authored order

A graph lists its nodes and its edges in some order, and the circuit keeps that order. No
question that is put to a circuit shows it: graphs that differ only in their order can be
loaded together or not at all, and their circuits find the same parts, the same wires and
the same scopes.
-/

namespace Pinflow

/-- Lookups by a key that no two entries share do not depend on the order. -/
theorem find?_eq_of_perm {α β : Type} [DecidableEq β] {f : α → β} {list other : List α}
    (distinct : (list.map f).Nodup) (perm : list.Perm other) (b : β) :
    list.find? (fun x => decide (f x = b)) = other.find? fun x => decide (f x = b) := by
  have apart : (other.map f).Nodup := (perm.map f).nodup_iff.mp distinct
  ext a
  rw [Circuit.find?_eq_some_iff_of_nodup distinct, Circuit.find?_eq_some_iff_of_nodup apart,
    perm.mem_iff]

namespace Arrows

variable {arrows others : Arrows} {seeds origins : List String}

theorem Reached.mono (arrowsIn : arrows ⊆ others) (seedsIn : seeds ⊆ origins) {node : String}
    (reached : Reached arrows seeds node) : Reached others origins node := by
  induction reached with
  | seed member => exact .seed (seedsIn member)
  | arrow _ member ih => exact .arrow ih (arrowsIn member)

/-- What is reached depends on which arrows and seeds there are, not on their order. -/
theorem mem_reach_congr (same : ∀ arrow, arrow ∈ arrows ↔ arrow ∈ others)
    (start : ∀ node, node ∈ seeds ↔ node ∈ origins) {node : String} :
    node ∈ arrows.reach seeds ↔ node ∈ others.reach origins := by
  rw [mem_reach_iff, mem_reach_iff]
  constructor
  · apply Reached.mono
    · exact fun arrow => (same arrow).mp
    · exact fun seed => (start seed).mp
  · apply Reached.mono
    · exact fun arrow => (same arrow).mpr
    · exact fun seed => (start seed).mpr

end Arrows

namespace Graph

structure Rearranges (graph other : Graph) : Prop where
  id : graph.id = other.id
  name : graph.name = other.name
  nodes : graph.nodes.Perm other.nodes
  edges : graph.edges.Perm other.edges

namespace Rearranges

variable {graph other : Graph} {registry : Registry}

section

variable (same : graph.Rearranges other)
include same

theorem symm : other.Rearranges graph :=
  ⟨same.id.symm, same.name.symm, same.nodes.symm, same.edges.symm⟩

section

variable (distinct : (graph.nodes.map Node.id).Nodup)
include distinct

theorem schema?_eq : graph.schema? registry = other.schema? registry := by
  funext id
  have found : (graph.nodes.find? fun node => node.id == id) =
      other.nodes.find? fun node => node.id == id := find?_eq_of_perm distinct same.nodes id
  rw [schema?, schema?, found]

theorem isControl_eq : graph.isControl registry = other.isControl registry := by
  funext edge
  simp only [isControl, outputPin?, same.schema?_eq distinct]

theorem controlEdges_perm : (graph.controlEdges registry).Perm (other.controlEdges registry) := by
  rw [controlEdges, controlEdges, same.isControl_eq distinct]
  exact same.edges.filter _

theorem dataEdges_perm : (graph.dataEdges registry).Perm (other.dataEdges registry) := by
  rw [dataEdges, dataEdges, same.isControl_eq distinct]
  exact same.edges.filter _

end

/-- Whether a graph is well-formed does not depend on its order. -/
theorem wellFormed (formed : graph.WellFormed registry) :
    other.WellFormed registry where
  distinct := (same.nodes.map Node.id).nodup_iff.mp formed.distinct
  known := by
    intro node member
    exact formed.known node (same.nodes.mem_iff.mpr member)
  joined := by
    intro edge member
    have joined := formed.joined edge (same.edges.mem_iff.mpr member)
    simpa only [outputPin?, inputPin?, same.schema?_eq formed.distinct] using joined
  single_source :=
    ((same.controlEdges_perm formed.distinct).map Edge.source).nodup_iff.mp formed.single_source
  single_target :=
    ((same.dataEdges_perm formed.distinct).map Edge.target).nodup_iff.mp formed.single_target

end

end Rearranges

end Graph

namespace Circuit

/-- Circuits that give the same answer to every question but for the order of a list. -/
structure Agrees (circuit other : Circuit) : Prop where
  id : circuit.id = other.id
  name : circuit.name = other.name
  size : circuit.parts.length = other.parts.length
  part? : ∀ node, circuit.part? node = other.part? node
  incoming? : ∀ node pin, circuit.incoming? node pin = other.incoming? node pin
  execTarget? : ∀ node pin, circuit.execTarget? node pin = other.execTarget? node pin
  volatileScope : ∀ node, node ∈ circuit.volatileScope ↔ node ∈ other.volatileScope
  executed : ∀ loop pin node,
    node ∈ (circuit.loopScope loop pin).executed ↔ node ∈ (other.loopScope loop pin).executed
  derived : ∀ loop pin node,
    node ∈ (circuit.loopScope loop pin).derived ↔ node ∈ (other.loopScope loop pin).derived

structure Shuffled (circuit other : Circuit) : Prop where
  id : circuit.id = other.id
  name : circuit.name = other.name
  parts : circuit.parts.Perm other.parts
  execEdges : circuit.execEdges.Perm other.execEdges
  dataEdges : circuit.dataEdges.Perm other.dataEdges

namespace Shuffled

variable {circuit other : Circuit} (same : circuit.Shuffled other)
include same

theorem mem_dataArrows_iff (arrow : String × String) :
    arrow ∈ circuit.dataArrows ↔ arrow ∈ other.dataArrows :=
  (same.dataEdges.map _).mem_iff

theorem mem_volatileScope_iff (node : String) :
    node ∈ circuit.volatileScope ↔ node ∈ other.volatileScope :=
  Arrows.mem_reach_congr same.mem_dataArrows_iff fun _ => ((same.parts.filter _).map _).mem_iff

theorem mem_executed_iff {loop pin : String}
    (start : circuit.execTarget? loop pin = other.execTarget? loop pin) (node : String) :
    node ∈ (circuit.loopScope loop pin).executed ↔
      node ∈ (other.loopScope loop pin).executed := by
  simp only [loopScope, start]
  refine Arrows.mem_reach_congr (fun arrow => ?_) fun _ => Iff.rfl
  exact ((same.execEdges.map _).filter _).mem_iff

theorem mem_derived_iff {loop pin : String}
    (start : circuit.execTarget? loop pin = other.execTarget? loop pin) (node : String) :
    node ∈ (circuit.loopScope loop pin).derived ↔ node ∈ (other.loopScope loop pin).derived := by
  have body := same.mem_executed_iff start
  have readers : node ∈ circuit.readers loop pin ↔ node ∈ other.readers loop pin := by
    refine Arrows.mem_reach_congr same.mem_dataArrows_iff fun seed => ?_
    rw [List.mem_cons, List.mem_cons, body seed]
  rw [Circuit.mem_derived_iff, Circuit.mem_derived_iff, readers, body node]

/-- Lookups find one entry at most, so the order does not show. -/
theorem agrees (names : (circuit.parts.map fun part => part.node.id).Nodup)
    (sources : (circuit.execEdges.map Edge.source).Nodup)
    (targets : (circuit.dataEdges.map Edge.target).Nodup) : circuit.Agrees other := by
  have exec : ∀ node pin, circuit.execTarget? node pin = other.execTarget? node pin := by
    intro node pin
    rw [execTarget?, execTarget?, find?_eq_of_perm sources same.execEdges]
  have data : ∀ node pin, circuit.incoming? node pin = other.incoming? node pin := by
    intro node pin
    rw [incoming?, incoming?, find?_eq_of_perm targets same.dataEdges]
  exact {
    id := same.id
    name := same.name
    size := same.parts.length_eq
    part? := find?_eq_of_perm names same.parts
    incoming? := data
    execTarget? := exec
    volatileScope := same.mem_volatileScope_iff
    executed := fun loop pin => same.mem_executed_iff (exec loop pin)
    derived := fun loop pin => same.mem_derived_iff (exec loop pin) }

end Shuffled

section Loading

variable {registry : Registry} {graph other : Graph} {circuit circuit' : Circuit}

theorem binds_rightUnique : Relator.RightUnique (Binds registry) := by
  rintro node ⟨_, kind, schema⟩ ⟨_, kind', schema'⟩ ⟨rfl, found, pins⟩ ⟨rfl, found', pins'⟩
  obtain rfl : kind = kind' := Option.some.inj (found.symm.trans found')
  obtain rfl : schema = schema' := Except.ok.inj (pins.symm.trans pins')
  rfl

theorem shuffled_of_load (same : graph.Rearranges other)
    (loaded : load registry graph = .ok circuit) (loaded' : load registry other = .ok circuit') :
    circuit.Shuffled circuit' := by
  obtain ⟨formed, parts, all, rfl⟩ := load_eq_ok_iff.mp loaded
  obtain ⟨-, parts', all', rfl⟩ := load_eq_ok_iff.mp loaded'
  exact {
    id := same.id
    name := same.name
    parts := List.rel_perm_imp binds_rightUnique all all' same.nodes
    execEdges := same.controlEdges_perm formed.distinct
    dataEdges := same.dataEdges_perm formed.distinct }

theorem map_id_of_forall₂_binds {nodes : List Node} {parts : List Part}
    (all : List.Forall₂ (Binds registry) nodes parts) :
    parts.map (fun part => part.node.id) = nodes.map Node.id := by
  induction all with
  | nil => rfl
  | cons binds _ ih => rw [List.map_cons, List.map_cons, ih, binds.1]

theorem nodup_names_of_load (loaded : load registry graph = .ok circuit) :
    (circuit.parts.map fun part => part.node.id).Nodup := by
  obtain ⟨formed, parts, all, rfl⟩ := load_eq_ok_iff.mp loaded
  rw [map_id_of_forall₂_binds all]
  exact formed.distinct

theorem agrees_of_load (same : graph.Rearranges other)
    (loaded : load registry graph = .ok circuit) (loaded' : load registry other = .ok circuit') :
    circuit.Agrees circuit' := by
  have shuffled := shuffled_of_load same loaded loaded'
  refine shuffled.agrees (nodup_names_of_load loaded) ?_ (nodup_targets_of_load loaded)
  obtain ⟨formed, parts, -, rfl⟩ := load_eq_ok_iff.mp loaded
  exact formed.single_source

theorem exists_load_of_rearranges (same : graph.Rearranges other)
    (loaded : load registry graph = .ok circuit) :
    ∃ circuit', load registry other = .ok circuit' := by
  obtain ⟨formed, -⟩ := load_eq_ok_iff.mp loaded
  have formed' := same.wellFormed formed
  obtain ⟨parts, all⟩ := exists_forall₂_binds formed'.known
  exact ⟨_, load_eq_ok_iff.mpr ⟨formed', parts, all, rfl⟩⟩

end Loading

end Circuit

end Pinflow
