import Mathlib
import Pinflow.Graph.Text
import Pinflow.Proofs.Json.Records

/-!
# Graphs through text

A graph that was read comes back from its own text. The two halves meet at `Graph.Storable`:
whatever form the text gave to its records, a graph that was read is storable, and a storable
graph is read back from the one form in which it is written.
-/

namespace Pinflow

open Json Option

variable {graph : Graph} {node : Node} {depth : Nat} {tree : Raw}

namespace PinRef

theorem toValue_eq (ref : PinRef) :
    ref.toValue = .obj [("node", .str ref.node), ("pin", .str ref.pin)] := by
  rw [toValue, Value.object, Fields.ofList_of_increasing]
  have inOrder : "node" < "pin" := by decide
  exact List.pairwise_pair.mpr inOrder

theorem reader_toValue (ref : PinRef) (depth : Nat) :
    reader (depth + 1) (Raw.ofValue ref.toValue) = some ref := by
  rw [toValue_eq, reader, record_obj (by simp)]
  simp [slot?, FieldSpec.required, Fields.get?]

end PinRef

namespace Edge

theorem toValue_eq (edge : Edge) :
    edge.toValue = .obj [("source", edge.source.toValue), ("target", edge.target.toValue)] := by
  rw [toValue, Value.object, Fields.ofList_of_increasing]
  have inOrder : "source" < "target" := by decide
  exact List.pairwise_pair.mpr inOrder

theorem reader_toValue (edge : Edge) (depth : Nat) :
    reader (depth + 2) (Raw.ofValue edge.toValue) = some edge := by
  rw [toValue_eq, reader, record_obj (by simp)]
  simp [slot?, FieldSpec.required, PinRef.reader_toValue]

theorem whole_toValue (edge : Edge) : edge.toValue.Whole := by
  simp [toValue_eq, PinRef.toValue_eq]

end Edge

namespace Node

/-- The configuration is proper and nests no deeper than is allowed. -/
structure Storable (node : Node) (depth : Nat) : Prop where
  proper : (Value.obj node.config).Proper
  within : (Value.obj node.config).depth ≤ depth

theorem nodup_entries (node : Node) : (node.entries.map Prod.fst).Nodup := by
  rw [entries]
  cases node.position <;> simp

theorem reader_position (depth : Nat) (x y : Float) :
    Reader.optional positionReader (depth + 1) (Raw.ofValue (.arr [.float x, .float y])) =
      some (some (x, y)) := rfl

theorem reader_entries (storable : node.Storable (depth + 1)) :
    reader (depth + 2) (Raw.ofValue (.obj node.entries)) = some node := by
  have config := Reader.fields_ofValue storable.proper.ordered storable.within
  rw [reader, record_obj node.nodup_entries]
  obtain ⟨id, kind, fields, position⟩ := node
  cases position <;>
    simp [entries, slot?, FieldSpec.required, FieldSpec.defaulted, Reader.orElse, config,
      reader_position]

theorem Storable.whole_entries (storable : node.Storable depth) :
    (Value.obj node.entries).Whole := by
  have config := Value.whole_obj_iff.mp storable.proper.whole
  obtain ⟨id, kind, fields, position⟩ := node
  cases position <;> simpa [entries] using config

theorem storable_of_reader (fits : tree.Fits) (reads : reader (depth + 2) tree = some node) :
    node.Storable (depth + 1) := by
  obtain ⟨inner, slots, same, reads, parts⟩ := exists_slots_of_record fits reads
  cases Nat.succ.inj same
  split at reads
  · rename_i id kind config position
    obtain ⟨_, -, reads⟩ := bind_eq_some_iff.mp reads
    obtain ⟨_, -, reads⟩ := bind_eq_some_iff.mp reads
    obtain ⟨fields, found, reads⟩ := bind_eq_some_iff.mp reads
    obtain ⟨_, -, reads⟩ := bind_eq_some_iff.mp reads
    cases reads
    cases config with
    | none =>
      -- a missing configuration is empty
      cases found
      exact ⟨.object (List.forall_mem_nil _), by simp [Value.depth, Value.fieldsDepth]⟩
    | some tree =>
      obtain ⟨proper, within⟩ := proper_of_fields (parts tree (by simp)) found
      exact ⟨proper, within⟩
  · cases reads

end Node

namespace Graph

/-- Every node fits three levels down: into the graph, its list of nodes and the node itself. -/
def Storable (graph : Graph) : Prop := ∀ node ∈ graph.nodes, node.Storable (maxDepth - 3)

theorem reader_record (storable : graph.Storable) :
    reader maxDepth (Raw.ofValue graph.record) = some graph := by
  have nodes : Reader.list Node.reader (maxDepth - 1)
      (Raw.ofValue (.arr (graph.nodes.map fun node => .obj node.entries))) = some graph.nodes :=
    Reader.list_map fun node member => Node.reader_entries (storable node member)
  have edges : Reader.list Edge.reader (maxDepth - 1)
      (Raw.ofValue (.arr (graph.edges.map Edge.toValue))) = some graph.edges :=
    Reader.list_map fun edge _ => edge.reader_toValue _
  show Reader.record _ _ (maxDepth - 1 + 1) _ = _
  rw [record, record_obj (by simp)]
  simp [slot?, FieldSpec.required, FieldSpec.defaulted, Reader.orElse, nodes, edges]

theorem whole_record (storable : graph.Storable) : graph.record.Whole := by
  have nodes : ∀ node ∈ graph.nodes, (Value.obj node.entries).Whole := fun node member =>
    (storable node member).whole_entries
  simpa [record, Edge.whole_toValue] using nodes

theorem storable_of_reader (fits : tree.Fits) (reads : reader maxDepth tree = some graph) :
    graph.Storable := by
  obtain ⟨inner, slots, same, reads, parts⟩ := exists_slots_of_record fits reads
  cases Nat.succ.inj same
  split at reads
  · rename_i id name nodes edges
    obtain ⟨_, -, reads⟩ := bind_eq_some_iff.mp reads
    obtain ⟨_, -, reads⟩ := bind_eq_some_iff.mp reads
    obtain ⟨found, listed, reads⟩ := bind_eq_some_iff.mp reads
    obtain ⟨_, -, reads⟩ := bind_eq_some_iff.mp reads
    cases reads
    intro node member
    cases nodes with
    | none =>
      cases listed
      exact absurd member List.not_mem_nil
    | some tree =>
      obtain ⟨inner, same, all⟩ := exists_tree_of_list (parts tree (by simp)) listed
      cases Nat.succ.inj same
      obtain ⟨part, fits, read⟩ := all node member
      exact Node.storable_of_reader fits read
  · cases reads

/-- A graph that was read comes back from the text that is written of it. -/
theorem read_render_of_read {text : String} {graph : Graph} (reads : read text = .ok graph)
    (rereads : ∀ x ∈ graph.record.floats, Rereads x) : read graph.render = .ok graph := by
  have storable : graph.Storable := by
    rw [read] at reads
    cases held : (Raw.read? text).bind (reader maxDepth) with
    | none => simp [held] at reads
    | some =>
      obtain ⟨tree, parsed, accepted⟩ := bind_eq_some_iff.mp held
      simp only [held, Except.ok.injEq] at reads
      subst reads
      exact storable_of_reader (Raw.fits_of_read? parsed) accepted
  have parsed : Raw.read? graph.render = some (Raw.ofValue graph.record) :=
    Value.raw_read?_render (whole_record storable) rereads
  rw [read, parsed, bind_some, reader_record storable]

/-- Lists where tables are usual, a node without its last fields, a repeated key, a field that
is not declared. -/
def mixedText : String :=
  "[\"g\",\"\",[\x7b\"kind\":\"log\",\"id\":\"a\",\"note\":[[]],\"position\":null," ++
    "\"config\":\x7b\"y\":1,\"x\":[\x7b\"n\":-2\x7d],\"y\":true\x7d\x7d,[\"b\",\"on_event\"]]," ++
    "[[[\"b\",\"then\"],\x7b\"pin\":\"exec\",\"node\":\"a\"\x7d]]]"

def mixed : Graph :=
  ⟨"g", "",
    [⟨"a", "log", [("x", .arr [.obj [("n", .int (-2))]]), ("y", .bool true)], none⟩,
      ⟨"b", "on_event", [], none⟩],
    [⟨⟨"b", "then"⟩, ⟨"a", "exec"⟩⟩]⟩

theorem read_render_of_read_mixedText :
    read mixedText = .ok mixed ∧ read mixed.render = .ok mixed := by
  have reads : read mixedText = .ok mixed := by cbv
  have noFloats : mixed.record.floats = [] := rfl
  refine ⟨reads, read_render_of_read reads ?_⟩
  rw [noFloats]
  exact List.forall_mem_nil _

end Graph

end Pinflow
