import Pinflow.Circuit.Scope
import Pinflow.Proofs.Circuit.Reach
import Pinflow.Proofs.Kinds.Classes

/-!
# Loaded circuits

What `Circuit.load` promises: every part is bound to a kind of the registry and has the
pins of that kind, control edges join control pins and data edges join data pins. For
circuits of built-in kinds it follows which nodes can stand where: control never enters a
data node, and only data nodes, loops and actions feed others.
-/

namespace Pinflow

open Kinds List

variable {part : Part} {kinds others : List Kind} {edge : Edge} {node pin : String}
  {registry : Registry} {source target : PinRef} {parts : List Part} {α : Type}

/-- Control goes to control and data to data. -/
theorem PinType.isExec_eq_of_feeds {source target : PinType} (fits : source.feeds target = true) :
    source.isExec = target.isExec := by
  rw [feeds] at fits
  cases out : source.isExec <;> cases into : target.isExec <;> simp_all

namespace Circuit

variable {circuit : Circuit}

def isOf (circuit : Circuit) (kinds : List Kind) (node : String) : Bool :=
  (circuit.part? node).any fun part => (kinds.map Kind.id).contains part.kind.id

theorem isOf_iff :
    circuit.isOf kinds node = true ↔
      ∃ part, circuit.part? node = some part ∧ part.kind.id ∈ kinds.map Kind.id := by
  simp [isOf, Option.any_eq_true]

theorem isOf_append :
    circuit.isOf (kinds ++ others) node = true ↔
      circuit.isOf kinds node = true ∨ circuit.isOf others node = true := by
  simp only [isOf_iff, map_append, mem_append]
  constructor
  · rintro ⟨part, found, named | named⟩
    · exact .inl ⟨part, found, named⟩
    · exact .inr ⟨part, found, named⟩
  · rintro (⟨part, found, named⟩ | ⟨part, found, named⟩)
    · exact ⟨part, found, .inl named⟩
    · exact ⟨part, found, .inr named⟩

theorem isOf_of_mem (found : circuit.part? node = some part) (known : part.kind ∈ kinds) :
    circuit.isOf kinds node = true :=
  isOf_iff.mpr ⟨part, found, mem_map_of_mem known⟩

theorem isOf_eq_false (apart : ∀ id ∈ kinds.map Kind.id, id ∉ others.map Kind.id)
    (known : circuit.isOf kinds node = true) : circuit.isOf others node = false := by
  rw [Bool.eq_false_iff]
  intro other
  obtain ⟨part, found, named⟩ := isOf_iff.mp known
  obtain ⟨same, foundSame, namedSame⟩ := isOf_iff.mp other
  obtain rfl : part = same := Option.some.inj (found.symm.trans foundSame)
  exact apart _ named namedSame

theorem part_eq_ok_iff : circuit.part node = .ok part ↔ circuit.part? node = some part := by
  rw [Circuit.part]
  cases circuit.part? node <;> simp

theorem unbroken_part {fault : Fault} (missing : circuit.part node = .error fault) :
    Unbroken (.error fault : Except Fault α) := by
  rw [Circuit.part] at missing
  cases found : circuit.part? node with
  | some => simp [found] at missing
  | none =>
    rw [found] at missing
    cases missing
    exact .wiring _

theorem id_of_part? (found : circuit.part? node = some part) : part.node.id = node := by
  simpa using find?_some found

theorem mem_of_part? (found : circuit.part? node = some part) :
    part ∈ circuit.parts := mem_of_find?_eq_some found

theorem mem_of_incoming? (wire : circuit.incoming? node pin = some source) :
    ⟨source, ⟨node, pin⟩⟩ ∈ circuit.dataEdges := by
  obtain ⟨edge, found, rfl⟩ := Option.map_eq_some_iff.mp wire
  have target : edge.target = ⟨node, pin⟩ := by simpa using find?_some found
  rw [← target]
  exact mem_of_find?_eq_some found

theorem mem_of_execTarget? (wire : circuit.execTarget? node pin = some target) :
    ⟨⟨node, pin⟩, target⟩ ∈ circuit.execEdges := by
  obtain ⟨edge, found, rfl⟩ := Option.map_eq_some_iff.mp wire
  have source : edge.source = ⟨node, pin⟩ := by simpa using find?_some found
  rw [← source]
  exact mem_of_find?_eq_some found

def DataOutput (circuit : Circuit) (source : PinRef) : Prop :=
  ∃ part output, circuit.part? source.node = some part ∧
    part.schema.output? source.pin = some output ∧ output.type.isExec = false

/-- An edge between declared pins, both of control or both of data. -/
def Joins (parts : List Part) (exec : Bool) (edge : Edge) : Prop :=
  ∃ source target output input,
    parts.find? (fun part => part.node.id == edge.source.node) = some source ∧
    parts.find? (fun part => part.node.id == edge.target.node) = some target ∧
    source.schema.output? edge.source.pin = some output ∧
    target.schema.input? edge.target.pin = some input ∧
    output.type.isExec = exec ∧ input.type.isExec = exec

structure Wired (registry : Registry) (circuit : Circuit) : Prop where
  bound : ∀ part ∈ circuit.parts,
    part.kind ∈ registry.kinds ∧ part.kind.pins part.node.config = .ok part.schema
  exec : ∀ edge ∈ circuit.execEdges, Joins circuit.parts true edge
  data : ∀ edge ∈ circuit.dataEdges, Joins circuit.parts false edge

namespace Wired

variable {registry : Registry} (wired : Wired registry circuit)
include wired

theorem bound_of_part? (found : circuit.part? node = some part) :
    part.kind ∈ registry.kinds ∧ part.kind.pins part.node.config = .ok part.schema :=
  wired.bound part (mem_of_part? found)

/-- What feeds an input is a data output. -/
theorem dataOutput_of_incoming? (wire : circuit.incoming? node pin = some source) :
    circuit.DataOutput source := by
  obtain ⟨part, -, output, -, found, -, declared, -, plain, -⟩ :=
    wired.data _ (mem_of_incoming? wire)
  exact ⟨part, output, found, declared, plain⟩

end Wired

theorem foldlM_keeps {β : Type} {P : β → Prop} {f : β → α → Except Fault β}
    (step : ∀ b a c, P b → f b a = .ok c → P c) {list : List α} {first last : β} (holds : P first)
    (folded : list.foldlM f first = .ok last) : P last := by
  induction list generalizing first with
  | nil =>
    cases folded
    exact holds
  | cons a list ih =>
    obtain ⟨b, stepped, folded⟩ := exists_of_bind_eq_ok folded
    exact ih (step first a b holds stepped) folded

theorem bindNode_keeps {parts' : List Part} {node : Node}
    (bound : ∀ part ∈ parts,
      part.kind ∈ registry.kinds ∧ part.kind.pins part.node.config = .ok part.schema)
    (step : bindNode registry parts node = .ok parts') :
    ∀ part ∈ parts',
      part.kind ∈ registry.kinds ∧ part.kind.pins part.node.config = .ok part.schema := by
  rw [bindNode] at step
  split at step
  · cases step
  · obtain ⟨kind, looked, step⟩ := exists_of_bind_eq_ok step
    have known : kind ∈ registry.kinds := by
      rw [Registry.lookup, Registry.find?] at looked
      split at looked
      · rename_i found
        cases looked
        exact mem_of_find?_eq_some found
      · cases looked
    split at step
    · rename_i schema pins
      cases step
      intro part member
      rcases mem_append.mp member with member | member
      · exact bound part member
      · rw [mem_singleton.mp member]
        exact ⟨known, pins⟩
    · split at step <;> cases step

/-- The edges accepted so far join pins of the right sort. -/
structure Wires.Joined (parts : List Part) (wires : Wires) : Prop where
  exec : ∀ edge ∈ wires.exec, Joins parts true edge
  data : ∀ edge ∈ wires.data, Joins parts false edge

theorem addEdge_keeps {wires wires' : Wires} (joined : wires.Joined parts)
    (step : addEdge parts wires edge = .ok wires') : wires'.Joined parts := by
  simp only [addEdge] at step
  split at step
  case h_2 => cases step
  case h_1 source foundSource =>
    split at step
    case h_2 => cases step
    case h_1 target foundTarget =>
      split at step
      case h_2 => cases step
      case h_1 output foundOutput =>
        split at step
        case h_2 => cases step
        case h_1 input foundInput =>
          split at step
          · cases step
          · rename_i fits
            have same := PinType.isExec_eq_of_feeds (by simpa using fits)
            have joins : Joins parts output.type.isExec edge :=
              ⟨source, target, output, input, foundSource, foundTarget, foundOutput, foundInput,
                rfl, same.symm⟩
            split at step
            · rename_i exec
              split at step
              · cases step
              · cases step
                refine ⟨fun other member => ?_, joined.data⟩
                rcases mem_append.mp member with member | member
                · exact joined.exec other member
                · rw [mem_singleton.mp member, ← exec]
                  exact joins
            · rename_i exec
              split at step
              · cases step
              · cases step
                refine ⟨joined.exec, fun other member => ?_⟩
                rcases mem_append.mp member with member | member
                · exact joined.data other member
                · rw [mem_singleton.mp member, ← Bool.eq_false_iff.mpr exec]
                  exact joins

theorem wired_of_load {graph : Graph} (loaded : load registry graph = .ok circuit) :
    Wired registry circuit := by
  obtain ⟨parts, bound, loaded⟩ := exists_of_bind_eq_ok loaded
  obtain ⟨wires, joined, loaded⟩ := exists_of_bind_eq_ok loaded
  cases loaded
  have none : Wires.Joined parts {} := by constructor <;> simp
  have joins := foldlM_keeps (fun _ _ _ => addEdge_keeps) none joined
  refine ⟨foldlM_keeps (fun _ _ _ => bindNode_keeps) ?_ bound, joins.exec, joins.data⟩
  exact forall_mem_nil _

def ofGraph (graph : Graph) : Circuit :=
  match load Registry.builtin graph with
  | .ok circuit => circuit
  | .error _ => ⟨graph.id, graph.name, [], [], []⟩

namespace Wired

variable (wired : Wired Registry.builtin circuit)
include wired

theorem kind_mem (found : circuit.part? node = some part) : part.kind ∈ builtin :=
  (wired.bound part (mem_of_part? found)).1

theorem kind_mem_of_isOf (sub : kinds ⊆ builtin) (found : circuit.part? node = some part)
    (known : circuit.isOf kinds node = true) : part.kind ∈ kinds := by
  obtain ⟨other, foundOther, named⟩ := isOf_iff.mp known
  obtain rfl : part = other := Option.some.inj (found.symm.trans foundOther)
  exact mem_of_id_mem sub (wired.kind_mem found) named

/-- Control leads to no data node. -/
theorem not_data_of_exec (member : edge ∈ circuit.execEdges) :
    circuit.isOf Kinds.data edge.target.node = false := by
  rw [Bool.eq_false_iff]
  intro isData
  obtain ⟨-, target, -, input, -, found, -, declared, -, exec⟩ := wired.exec edge member
  have pins := (wired.bound target (mem_of_part? found)).2
  have data := wired.kind_mem_of_isOf data_subset found isData
  have plain := input_not_exec_of_data data pins (mem_of_find?_eq_some declared)
  rw [exec] at plain
  cases plain

/-- Control leads to nodes that it can enter. -/
theorem executable_of_execTarget? (wire : circuit.execTarget? node pin = some target) :
    ∃ part, circuit.part? target.node = some part ∧ part.kind ∉ pureData := by
  have member := mem_of_execTarget? wire
  obtain ⟨-, part, -, -, -, found, -⟩ := wired.exec _ member
  refine ⟨part, found, fun computing => ?_⟩
  have isData : part.kind ∈ Kinds.data := mem_cons_of_mem _ computing
  have entered : circuit.isOf Kinds.data target.node = true := isOf_of_mem found isData
  rw [wired.not_data_of_exec member] at entered
  cases entered

/-- Only data nodes, loops and actions feed other nodes. -/
theorem source_class (member : edge ∈ circuit.dataEdges) :
    circuit.isOf Kinds.data edge.source.node = true ∨
      circuit.isOf loops edge.source.node = true ∨
      circuit.isOf actions edge.source.node = true := by
  obtain ⟨source, -, output, -, found, -, declared, -, plain, -⟩ := wired.data edge member
  have pins := (wired.bound source (mem_of_part? found)).2
  have rest : ¬ (source.kind ∈ breaks ∨ source.kind ∈ passing) := by
    intro rest
    have exec := output_exec_of_rest rest pins (mem_of_find?_eq_some declared)
    rw [plain] at exec
    cases exec
  rcases class_of_builtin (wired.kind_mem found) with data | loop | action | other
  · exact .inl (isOf_of_mem found data)
  · exact .inr (.inl (isOf_of_mem found loop))
  · exact .inr (.inr (isOf_of_mem found action))
  · exact absurd other rest

end Wired

end Circuit

end Pinflow
