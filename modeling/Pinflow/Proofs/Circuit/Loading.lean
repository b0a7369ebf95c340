import Mathlib.Data.List.Nodup
import Pinflow.Proofs.Circuit.Wired

/-!
# Loading

`Circuit.load` accepts exactly the well-formed graphs of a registry. Well-formedness is
said of the graph as authored, with no mention of the order in which the loader looks at
things: node names are distinct, every node has pins, every edge joins two declared pins
that fit, and no control output or data input is wired twice. The circuit of a
well-formed graph has one part per node, in authored order, and finds every wire of the
graph and no other. What the loader answers otherwise is a fault of the graph, even where
a kind refused a config with a fault of another sort.
-/

namespace Pinflow

open List

variable {nodes : List Node} {graph : Graph} {circuit : Circuit} {fault : Fault} {edge : Edge}
  {edges : List Edge} {wires' wires : Wires} {node : Node} {α β : Type} {a : α}
  {parts' parts : List Part} {pin : String}

namespace Graph

variable (graph : Graph) (registry : Registry)

def schema? (id : String) : Option Schema := do
  let node ← graph.nodes.find? fun node => node.id == id
  let kind ← registry.find? node.kind
  (kind.pins node.config).toOption

def outputPin? (ref : PinRef) : Option Pin :=
  (graph.schema? registry ref.node).bind fun schema => schema.output? ref.pin

def inputPin? (ref : PinRef) : Option Pin :=
  (graph.schema? registry ref.node).bind fun schema => schema.input? ref.pin

def isControl (edge : Edge) : Bool :=
  (graph.outputPin? registry edge.source).any fun pin => pin.type.isExec

def controlEdges : List Edge := graph.edges.filter (graph.isControl registry)

def dataEdges : List Edge := graph.edges.filter fun edge => !graph.isControl registry edge

structure WellFormed : Prop where
  distinct : (graph.nodes.map Node.id).Nodup
  known : ∀ node ∈ graph.nodes, ∃ kind schema,
    registry.find? node.kind = some kind ∧ kind.pins node.config = .ok schema
  joined : ∀ edge ∈ graph.edges, ∃ output input,
    graph.outputPin? registry edge.source = some output ∧
    graph.inputPin? registry edge.target = some input ∧
    output.type.feeds input.type = true
  single_source : ((graph.controlEdges registry).map Edge.source).Nodup
  single_target : ((graph.dataEdges registry).map Edge.target).Nodup

end Graph

namespace Circuit

variable {registry : Registry} {list : List α}

def Binds (registry : Registry) (node : Node) (part : Part) : Prop :=
  part.node = node ∧ registry.find? node.kind = some part.kind ∧
    part.kind.pins node.config = .ok part.schema

theorem lookup_eq_ok_iff {id : String} {kind : Kind} :
    registry.lookup id = .ok kind ↔ registry.find? id = some kind := by
  rw [Registry.lookup]
  cases registry.find? id <;> simp

theorem bindNode_eq_ok_iff :
    bindNode registry parts node = .ok parts' ↔
      node.id ∉ parts.map (·.node.id) ∧
        ∃ part, Binds registry node part ∧ parts' = parts ++ [part] := by
  have taken : (parts.any fun part => part.node.id == node.id) = true ↔
      node.id ∈ parts.map (·.node.id) := by simp
  rw [bindNode]
  split
  case isTrue old =>
    simp [taken.mp old]
  case isFalse new =>
    rw [taken] at new
    constructor
    · intro bound
      obtain ⟨kind, looked, bound⟩ := exists_of_bind_eq_ok bound
      split at bound
      · rename_i schema pins
        cases bound
        exact ⟨new, _, ⟨rfl, lookup_eq_ok_iff.mp looked, pins⟩, rfl⟩
      · split at bound <;> cases bound
    · rintro ⟨-, part, ⟨rfl, found, pins⟩, rfl⟩
      rw [lookup_eq_ok_iff.mpr found]
      simp only [bind, Except.bind, pins]

/-- Binding goes through if names are new and distinct and every node has pins, and adds
one part per node. -/
theorem foldlM_bindNode_eq_ok_iff :
    nodes.foldlM (bindNode registry) parts = .ok parts' ↔
      (nodes.map Node.id).Nodup ∧ (∀ node ∈ nodes, node.id ∉ parts.map (·.node.id)) ∧
        ∃ added, List.Forall₂ (Binds registry) nodes added ∧ parts' = parts ++ added := by
  induction nodes generalizing parts with
  | nil => simp [pure, Except.pure, eq_comm]
  | cons node nodes ih =>
    rw [foldlM_cons]
    constructor
    · intro folded
      obtain ⟨middle, bound, folded⟩ := exists_of_bind_eq_ok folded
      obtain ⟨new, part, binds, rfl⟩ := bindNode_eq_ok_iff.mp bound
      obtain ⟨distinct, apart, added, all, rfl⟩ := ih.mp folded
      simp only [map_append, map_cons, map_nil, mem_append,
        mem_singleton, not_or, binds.1] at apart
      refine ⟨?_, ?_, part :: added, .cons binds all, by simp⟩
      · rw [map_cons, nodup_cons]
        refine ⟨fun again => ?_, distinct⟩
        obtain ⟨other, member, same⟩ := mem_map.mp again
        exact (apart other member).2 same
      · intro other member
        rcases mem_cons.mp member with rfl | member
        · exact new
        · exact (apart other member).1
    · rintro ⟨distinct, apart, _, all, rfl⟩
      cases all with
      | @cons _ part _ added binds all =>
        rw [map_cons, nodup_cons] at distinct
        have bound : bindNode registry parts node = .ok (parts ++ [part]) :=
          bindNode_eq_ok_iff.mpr ⟨apart node mem_cons_self, part, binds, rfl⟩
        rw [bound]
        refine ih.mpr ⟨distinct.2, fun other member => ?_, added, all, by simp⟩
        simp only [map_append, map_cons, map_nil, mem_append,
          mem_singleton, not_or, binds.1]
        refine ⟨apart other (mem_cons_of_mem node member), fun same => distinct.1 ?_⟩
        rw [← same]
        exact mem_map_of_mem member

theorem exists_forall₂_binds
    (known : ∀ node ∈ nodes, ∃ kind schema,
      registry.find? node.kind = some kind ∧ kind.pins node.config = .ok schema) :
    ∃ parts, List.Forall₂ (Binds registry) nodes parts := by
  induction nodes with
  | nil => exact ⟨[], .nil⟩
  | cons node nodes ih =>
    obtain ⟨kind, schema, found, pins⟩ := known node mem_cons_self
    obtain ⟨parts, all⟩ := ih fun other member => known other (mem_cons_of_mem node member)
    exact ⟨⟨node, kind, schema⟩ :: parts, .cons ⟨rfl, found, pins⟩ all⟩

theorem known_of_forall₂_binds (all : List.Forall₂ (Binds registry) nodes parts) :
    ∀ node ∈ nodes, ∃ kind schema,
      registry.find? node.kind = some kind ∧ kind.pins node.config = .ok schema := by
  induction all with
  | nil => exact forall_mem_nil _
  | cons binds _ ih =>
    intro node member
    rcases mem_cons.mp member with rfl | member
    · exact ⟨_, _, binds.2.1, binds.2.2⟩
    · exact ih node member

def schemaOf? (parts : List Part) (id : String) : Option Schema :=
  (parts.find? fun part => part.node.id == id).map Part.schema

/-- Parts and nodes agree about the pins of every name. -/
theorem schema?_eq (all : List.Forall₂ (Binds registry) graph.nodes parts) :
    graph.schema? registry = schemaOf? parts := by
  funext id
  rw [Graph.schema?, schemaOf?]
  generalize graph.nodes = nodes at all
  induction all with
  | nil => rfl
  | @cons node part nodes parts binds _ ih =>
    obtain ⟨rfl, found, pins⟩ := binds
    cases here : part.node.id == id
    · simpa only [find?_cons, here] using ih
    · simp [here, found, pins, Except.toOption]

def Fits (parts : List Part) (edge : Edge) : Prop :=
  ∃ output input,
    (schemaOf? parts edge.source.node).bind (·.output? edge.source.pin) = some output ∧
    (schemaOf? parts edge.target.node).bind (·.input? edge.target.pin) = some input ∧
    output.type.feeds input.type = true

def leavesControl (parts : List Part) (edge : Edge) : Bool :=
  ((schemaOf? parts edge.source.node).bind (·.output? edge.source.pin)).any (·.type.isExec)

namespace Wires

/-- The wires with more edges accepted, each to its sort. -/
def extend (wires : Wires) (parts : List Part) (edges : List Edge) : Wires where
  exec := wires.exec ++ edges.filter (leavesControl parts)
  data := wires.data ++ edges.filter fun edge => !leavesControl parts edge

theorem extend_nil (wires : Wires) (parts : List Part) : wires.extend parts [] = wires := by
  simp [extend]

/-- No control output and no data input is wired twice. -/
structure Single (wires : Wires) : Prop where
  source : (wires.exec.map Edge.source).Nodup
  target : (wires.data.map Edge.target).Nodup

theorem Single.of_extend (single : (wires.extend parts edges).Single) :
    wires.Single where
  source := single.source.sublist ((sublist_append_left ..).map _)
  target := single.target.sublist ((sublist_append_left ..).map _)

end Wires

theorem nodup_map_concat_iff {f : α → β} (distinct : (list.map f).Nodup) :
    ((list ++ [a]).map f).Nodup ↔ f a ∉ list.map f := by
  rw [map_append, map_singleton, ← concat_eq_append, nodup_concat]
  exact and_iff_left distinct

theorem fits_of_addEdge (added : addEdge parts wires edge = .ok wires') : Fits parts edge := by
  simp only [addEdge] at added
  split at added
  case h_2 => cases added
  case h_1 source foundSource =>
    split at added
    case h_2 => cases added
    case h_1 target foundTarget =>
      split at added
      case h_2 => cases added
      case h_1 output foundOutput =>
        split at added
        case h_2 => cases added
        case h_1 input foundInput =>
          split at added
          · cases added
          · rename_i fits
            refine ⟨output, input, ?_, ?_, by simpa using fits⟩
            · simpa [schemaOf?, foundSource] using foundOutput
            · simpa [schemaOf?, foundTarget] using foundInput

/-- An edge that fits is refused only if it wires something twice. -/
theorem addEdge_of_fits (fits : Fits parts edge) :
    addEdge parts wires edge =
      if leavesControl parts edge then
        if edge.source ∈ wires.exec.map Edge.source then .error (.wiring (.execWiredTwice edge.source))
        else .ok { wires with exec := wires.exec ++ [edge] }
      else if edge.target ∈ wires.data.map Edge.target then
        .error (.wiring (.dataWiredTwice edge.target))
      else .ok { wires with data := wires.data ++ [edge] } := by
  obtain ⟨output, input, out, into, fits⟩ := fits
  obtain ⟨schema, ofSource, foundOutput⟩ := Option.bind_eq_some_iff.mp out
  obtain ⟨source, foundSource, rfl⟩ := Option.map_eq_some_iff.mp ofSource
  obtain ⟨schema, ofTarget, foundInput⟩ := Option.bind_eq_some_iff.mp into
  obtain ⟨target, foundTarget, rfl⟩ := Option.map_eq_some_iff.mp ofTarget
  simp only [addEdge, foundSource, foundTarget, foundOutput, foundInput, fits, leavesControl, out]
  simp

theorem single_extend_iff (single : wires.Single) :
    (wires.extend parts [edge]).Single ↔
      if leavesControl parts edge then edge.source ∉ wires.exec.map Edge.source
      else edge.target ∉ wires.data.map Edge.target := by
  cases control : leavesControl parts edge
  · simp only [Wires.extend, filter_cons, filter_nil, control, append_nil,
      Bool.not_false, if_true, Bool.false_eq_true, if_false]
    rw [← nodup_map_concat_iff single.target]
    exact ⟨Wires.Single.target, fun target => ⟨single.source, target⟩⟩
  · simp only [Wires.extend, filter_cons, filter_nil, control, append_nil,
      Bool.not_true, if_true, Bool.false_eq_true, if_false]
    rw [← nodup_map_concat_iff single.source]
    exact ⟨Wires.Single.source, fun source => ⟨source, single.target⟩⟩

/-- An edge is accepted if it fits and wires nothing twice. -/
theorem addEdge_eq_ok_iff (single : wires.Single) :
    addEdge parts wires edge = .ok wires' ↔
      Fits parts edge ∧ (wires.extend parts [edge]).Single ∧
        wires' = wires.extend parts [edge] := by
  have opened (fits : Fits parts edge) : addEdge parts wires edge = .ok wires' ↔
      (wires.extend parts [edge]).Single ∧ wires' = wires.extend parts [edge] := by
    rw [addEdge_of_fits fits, single_extend_iff single]
    cases control : leavesControl parts edge
    · by_cases twice : edge.target ∈ wires.data.map Edge.target <;>
        simp [twice, Wires.extend, control, eq_comm]
    · by_cases twice : edge.source ∈ wires.exec.map Edge.source <;>
        simp [twice, Wires.extend, control, eq_comm]
  constructor
  · intro added
    exact ⟨fits_of_addEdge added, (opened (fits_of_addEdge added)).mp added⟩
  · rintro ⟨fits, rest⟩
    exact (opened fits).mpr rest

theorem foldlM_addEdge_eq_ok_iff (single : wires.Single) :
    edges.foldlM (addEdge parts) wires = .ok wires' ↔
      (∀ edge ∈ edges, Fits parts edge) ∧ (wires.extend parts edges).Single ∧
        wires' = wires.extend parts edges := by
  induction edges generalizing wires with
  | nil => simp [pure, Except.pure, eq_comm, Wires.extend_nil, single]
  | cons edge edges ih =>
    rw [foldlM_cons]
    have split : wires.extend parts (edge :: edges) =
        (wires.extend parts [edge]).extend parts edges := by
      simp only [Wires.extend, append_assoc, ← filter_append, singleton_append]
    rw [split, forall_mem_cons]
    constructor
    · intro folded
      obtain ⟨middle, added, folded⟩ := exists_of_bind_eq_ok folded
      obtain ⟨fits, single, rfl⟩ := (addEdge_eq_ok_iff single).mp added
      obtain ⟨all, final, rfl⟩ := (ih single).mp folded
      exact ⟨⟨fits, all⟩, final, rfl⟩
    · rintro ⟨⟨fits, all⟩, final, rfl⟩
      have added : addEdge parts wires edge = .ok (wires.extend parts [edge]) :=
        (addEdge_eq_ok_iff single).mpr ⟨fits, final.of_extend, rfl⟩
      rw [added]
      exact (ih final.of_extend).mpr ⟨all, final, rfl⟩

section Bound

variable (all : List.Forall₂ (Binds registry) graph.nodes parts)
include all

theorem isControl_eq : graph.isControl registry = leavesControl parts := by
  funext edge
  rw [Graph.isControl, Graph.outputPin?, schema?_eq all, leavesControl]

theorem fits_iff :
    Fits parts edge ↔ ∃ output input,
      graph.outputPin? registry edge.source = some output ∧
      graph.inputPin? registry edge.target = some input ∧
      output.type.feeds input.type = true := by
  simp only [Graph.outputPin?, Graph.inputPin?, schema?_eq all, Fits]

theorem extend_edges :
    ({} : Wires).extend parts graph.edges = ⟨graph.controlEdges registry, graph.dataEdges registry⟩ := by
  simp only [Wires.extend, Graph.controlEdges, Graph.dataEdges, isControl_eq all, nil_append]

end Bound

/-- What is loaded is the circuit of a well-formed graph: the parts of its nodes and its
edges by sort, all in authored order. -/
theorem load_eq_ok_iff :
    load registry graph = .ok circuit ↔
      graph.WellFormed registry ∧ ∃ parts, List.Forall₂ (Binds registry) graph.nodes parts ∧
        circuit = ⟨graph.id, graph.name, parts, graph.controlEdges registry,
          graph.dataEdges registry⟩ := by
  have none : Wires.Single {} := ⟨nodup_nil, nodup_nil⟩
  constructor
  · intro loaded
    obtain ⟨parts, bound, loaded⟩ := exists_of_bind_eq_ok loaded
    obtain ⟨wires, joined, loaded⟩ := exists_of_bind_eq_ok loaded
    obtain ⟨distinct, -, _, all, rfl⟩ := foldlM_bindNode_eq_ok_iff.mp bound
    obtain ⟨fits, single, rfl⟩ := (foldlM_addEdge_eq_ok_iff none).mp joined
    rw [extend_edges all] at single loaded
    cases loaded
    exact ⟨⟨distinct, known_of_forall₂_binds all,
      fun edge member => (fits_iff all).mp (fits edge member), single.source, single.target⟩,
      parts, all, rfl⟩
  · rintro ⟨formed, parts, all, rfl⟩
    have bound : graph.nodes.foldlM (bindNode registry) [] = .ok parts :=
      foldlM_bindNode_eq_ok_iff.mpr ⟨formed.distinct, by simp, parts, all, rfl⟩
    have joined : graph.edges.foldlM (addEdge parts) {} =
        .ok ⟨graph.controlEdges registry, graph.dataEdges registry⟩ := by
      rw [foldlM_addEdge_eq_ok_iff none, extend_edges all]
      exact ⟨fun edge member => (fits_iff all).mpr (formed.joined edge member),
        ⟨formed.single_source, formed.single_target⟩, rfl⟩
    rw [load, bound]
    simp only [bind, Except.bind, joined]

theorem foldlM_fault {P : Fault → Prop} {f : β → α → Except Fault β}
    (step : ∀ b a fault, f b a = .error fault → P fault) {first : β}
    (failed : list.foldlM f first = .error fault) : P fault := by
  induction list generalizing first with
  | nil => cases failed
  | cons a list ih =>
    rw [foldlM_cons] at failed
    cases stepped : f first a with
    | error =>
      rw [stepped] at failed
      cases failed
      exact step first a fault stepped
    | ok =>
      rw [stepped] at failed
      exact ih failed

theorem isConfiguration_of_bindNode (failed : bindNode registry parts node = .error fault) :
    fault.isConfiguration = true := by
  rw [bindNode] at failed
  split at failed
  · cases failed
    rfl
  · rw [Registry.lookup] at failed
    cases found : registry.find? node.kind with
    | none =>
      rw [found] at failed
      cases failed
      rfl
    | some =>
      rw [found] at failed
      simp only [bind, Except.bind] at failed
      split at failed
      · cases failed
      · split at failed
        · rename_i known
          cases failed
          exact known
        · cases failed
          rfl

theorem isConfiguration_of_addEdge (failed : addEdge parts wires edge = .error fault) :
    fault.isConfiguration = true := by
  simp only [addEdge] at failed
  split at failed
  case h_2 =>
    cases failed
    rfl
  split at failed
  case h_2 =>
    cases failed
    rfl
  split at failed
  case h_2 =>
    cases failed
    rfl
  split at failed
  case h_2 =>
    cases failed
    rfl
  split at failed
  · cases failed
    rfl
  split at failed
  · split at failed <;> cases failed
    rfl
  · split at failed <;> cases failed
    rfl

theorem isConfiguration_of_load (failed : load registry graph = .error fault) :
    fault.isConfiguration = true := by
  rw [load] at failed
  cases bound : graph.nodes.foldlM (bindNode registry) [] with
  | error =>
    rw [bound] at failed
    cases failed
    exact foldlM_fault (fun _ _ _ => isConfiguration_of_bindNode) bound
  | ok parts =>
    rw [bound] at failed
    cases joined : graph.edges.foldlM (addEdge parts) {} with
    | error =>
      simp only [bind, Except.bind, joined] at failed
      cases failed
      exact foldlM_fault (fun _ _ _ => isConfiguration_of_addEdge) joined
    | ok =>
      simp only [bind, Except.bind, joined] at failed
      cases failed

theorem find?_eq_some_iff_of_nodup [DecidableEq β] {f : α → β} (distinct : (list.map f).Nodup)
    {b : β} :
    list.find? (fun x => decide (f x = b)) = some a ↔ a ∈ list ∧ f a = b := by
  constructor
  · intro found
    exact ⟨mem_of_find?_eq_some found, by simpa using find?_some found⟩
  · rintro ⟨member, rfl⟩
    have known : (list.find? fun x => decide (f x = f a)).isSome = true :=
      find?_isSome.mpr ⟨a, member, decide_eq_true rfl⟩
    obtain ⟨other, found⟩ := Option.isSome_iff_exists.mp known
    have same : f other = f a := by simpa using find?_some found
    rw [found, inj_on_of_nodup_map distinct (mem_of_find?_eq_some found) member same]

/-- A circuit that knows a graph: its nodes in authored order, each bound, and its wires. -/
structure Indexes (registry : Registry) (graph : Graph) (circuit : Circuit) : Prop where
  parts : List.Forall₂ (Binds registry) graph.nodes circuit.parts
  incoming : ∀ node pin source, circuit.incoming? node pin = some source ↔
    ⟨source, ⟨node, pin⟩⟩ ∈ graph.dataEdges registry
  execTarget : ∀ node pin target, circuit.execTarget? node pin = some target ↔
    ⟨⟨node, pin⟩, target⟩ ∈ graph.controlEdges registry
  edgeCount : circuit.edgeCount = graph.edges.length

theorem incoming?_eq_some_iff {node : String} {source : PinRef}
    (single : (circuit.dataEdges.map Edge.target).Nodup) :
    circuit.incoming? node pin = some source ↔ ⟨source, ⟨node, pin⟩⟩ ∈ circuit.dataEdges := by
  refine ⟨mem_of_incoming?, fun member => ?_⟩
  rw [incoming?, (find?_eq_some_iff_of_nodup single).mpr ⟨member, rfl⟩, Option.map_some]

/-- No data input of a loaded circuit is fed twice. -/
theorem nodup_targets_of_load (loaded : load registry graph = .ok circuit) :
    (circuit.dataEdges.map Edge.target).Nodup := by
  obtain ⟨formed, parts, -, rfl⟩ := load_eq_ok_iff.mp loaded
  exact formed.single_target

theorem execTarget?_eq_some_iff {node : String} {target : PinRef}
    (single : (circuit.execEdges.map Edge.source).Nodup) :
    circuit.execTarget? node pin = some target ↔ ⟨⟨node, pin⟩, target⟩ ∈ circuit.execEdges := by
  refine ⟨mem_of_execTarget?, fun member => ?_⟩
  rw [execTarget?, (find?_eq_some_iff_of_nodup single).mpr ⟨member, rfl⟩, Option.map_some]

theorem indexes_of_load (loaded : load registry graph = .ok circuit) :
    Indexes registry graph circuit := by
  obtain ⟨formed, parts, all, rfl⟩ := load_eq_ok_iff.mp loaded
  refine ⟨all, fun _ _ _ => incoming?_eq_some_iff formed.single_target,
    fun _ _ _ => execTarget?_eq_some_iff formed.single_source, ?_⟩
  rw [edgeCount, Graph.dataEdges, Graph.controlEdges, Nat.add_comm]
  exact (length_eq_length_filter_add (graph.isControl registry)).symm

/-- Loading accepts exactly the well-formed graphs and knows exactly their wires; it
answers a graph that is not well-formed with a fault of the graph. -/
theorem load_decides_wellFormed (registry : Registry) (graph : Graph) :
    ((∃ circuit, load registry graph = .ok circuit) ↔ graph.WellFormed registry) ∧
      (∀ circuit, load registry graph = .ok circuit → Indexes registry graph circuit) ∧
      ∀ fault, load registry graph = .error fault → fault.isConfiguration = true := by
  refine ⟨⟨?_, ?_⟩, fun _ => indexes_of_load, fun _ => isConfiguration_of_load⟩
  · rintro ⟨circuit, loaded⟩
    exact (load_eq_ok_iff.mp loaded).1
  · intro formed
    obtain ⟨parts, all⟩ := exists_forall₂_binds formed.known
    exact ⟨_, load_eq_ok_iff.mpr ⟨formed, parts, all, rfl⟩⟩

/-- A pair that takes both its items from one constant, and is logged. -/
def doubling : Graph where
  id := "doubling"
  nodes := [
    { id := "start", kind := "on_event" },
    { id := "one", kind := "constant", config := [("value", .int 1)] },
    { id := "pair", kind := "make_array", config := [("arity", .int 2)] },
    { id := "say", kind := "log" }]
  edges := [
    ⟨⟨"start", "then"⟩, ⟨"say", "exec"⟩⟩, ⟨⟨"one", "value"⟩, ⟨"pair", "item_0"⟩⟩,
    ⟨⟨"one", "value"⟩, ⟨"pair", "item_1"⟩⟩, ⟨⟨"pair", "array"⟩, ⟨"say", "message"⟩⟩]

theorem load_decides_wellFormed_doubling :
    doubling.WellFormed Registry.builtin ∧
      Indexes Registry.builtin doubling (.ofGraph doubling) ∧
      ¬ { doubling with edges := doubling.edges ++ doubling.edges }.WellFormed Registry.builtin := by
  have loaded : load Registry.builtin doubling = .ok (.ofGraph doubling) := rfl
  obtain ⟨accepted, indexed, -⟩ := load_decides_wellFormed Registry.builtin doubling
  refine ⟨accepted.mp ⟨_, loaded⟩, indexed _ loaded, fun formed => ?_⟩
  obtain ⟨circuit, loaded⟩ := (load_decides_wellFormed _ _).1.mpr formed
  cases loaded

end Circuit

end Pinflow
