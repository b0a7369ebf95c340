import Mathlib.Data.List.Chain
import Mathlib.Logic.Relation
import Pinflow.Proofs.Circuit.Loading
import Pinflow.Proofs.Circuit.Scope

/-!
# What the scope of a loop is

`Circuit.loopScope` is found by two searches, one along control and one along data, and
the second starts where the first one ends. `LoopScoped` says what the scope has to be by
paths in the graph as authored: control must not come back through the loop on its way to
a body node, while data may take any way. `loopScope_exact` says that the scope is just
that for every graph that can be loaded, whatever circles it has, and that both searches
run until nothing is left on their worklists.
-/

namespace Pinflow

open Arrows List

variable {node a b avoided first loop pin : String}

namespace Arrows

variable {arrows : Arrows} {seeds : List String}

inductive Searches (arrows : Arrows) :
    (visits : Nat) → (seen worklist found : List String) → Prop
  | ended {seen : List String} : Searches arrows 0 seen [] seen
  | skipped {visits : Nat} {seen worklist found : List String} {node : String} (old : node ∈ seen)
      (rest : Searches arrows visits seen worklist found) :
      Searches arrows (visits + 1) seen (node :: worklist) found
  | visited {visits : Nat} {seen worklist found : List String} {node : String} (new : node ∉ seen)
      (rest : Searches arrows visits (node :: seen) (arrows.targets node ++ worklist) found) :
      Searches arrows (visits + 1) seen (node :: worklist) found

/-- With enough visits left, the bound of a search is not felt. -/
theorem searches_explore {visits : Nat} {seen worklist : List String}
    (enough : worklist.length + (arrows.unseen seen).length ≤ visits) :
    ∃ made ≤ worklist.length + (arrows.unseen seen).length,
      arrows.Searches made seen worklist (arrows.explore visits seen worklist) := by
  fun_induction explore arrows visits seen worklist with
  | case1 worklist =>
    obtain rfl : worklist = [] := eq_nil_of_length_eq_zero (by omega)
    exact ⟨0, Nat.zero_le _, .ended⟩
  | case2 => exact ⟨0, Nat.zero_le _, .ended⟩
  | case3 visits seen node worklist old ih =>
    simp only [length_cons] at enough ⊢
    obtain ⟨made, few, rest⟩ := ih (by omega)
    exact ⟨made + 1, by omega, .skipped (by simpa using old) rest⟩
  | case4 visits seen node worklist new ih =>
    have new : node ∉ seen := by simpa using new
    have count : (arrows.targets node).length + _ = _ := length_unseen_cons new
    simp only [length_append, length_cons] at enough ih ⊢
    obtain ⟨made, few, rest⟩ := ih (by omega)
    exact ⟨made + 1, by omega, .visited new rest⟩

/-- The search ends, after at most one visit for every seed and every arrow. -/
theorem searches_reach (arrows : Arrows) (seeds : List String) :
    ∃ made ≤ seeds.length + arrows.length, arrows.Searches made [] seeds (arrows.reach seeds) := by
  have few : seeds.length + (arrows.unseen []).length ≤ seeds.length + arrows.length :=
    Nat.add_le_add_left (length_filter_le _ _) _
  obtain ⟨made, less, searches⟩ := searches_explore few
  exact ⟨made, Nat.le_trans less few, searches⟩

/-- What is reached is what a path of arrows leads to from a seed. -/
theorem reached_iff :
    Reached arrows seeds node ↔
      ∃ first ∈ seeds, Relation.ReflTransGen (fun a b => (a, b) ∈ arrows) first node := by
  constructor
  · intro reached
    induction reached with
    | @seed node member => exact ⟨node, member, .refl⟩
    | arrow _ member ih =>
      obtain ⟨first, isSeed, path⟩ := ih
      exact ⟨first, isSeed, path.tail member⟩
  · rintro ⟨first, isSeed, path⟩
    induction path with
    | refl => exact .seed isSeed
    | tail _ member ih => exact .arrow ih member

/-- Leaving out the arrows into a node is walking around it. -/
theorem isChain_avoiding_iff {path : List String} :
    List.IsChain (fun a b => (a, b) ∈ arrows.filter fun arrow => arrow.2 != avoided)
        (first :: path) ↔
      List.IsChain (fun a b => (a, b) ∈ arrows) (first :: path) ∧ avoided ∉ path := by
  induction path generalizing first with
  | nil => simp
  | cons next path ih =>
    rw [isChain_cons_cons, isChain_cons_cons, ih, mem_filter, mem_cons, not_or]
    simp only [bne_iff_ne, ne_eq, eq_comm (a := avoided)]
    tauto

theorem reached_avoiding_iff (other : first ≠ avoided) :
    Reached (arrows.filter fun arrow => arrow.2 != avoided) [first] node ↔
      ∃ path, List.IsChain (fun a b => (a, b) ∈ arrows) (first :: path) ∧
        (first :: path).getLast? = some node ∧ avoided ∉ first :: path := by
  rw [reached_iff]
  constructor
  · rintro ⟨seed, isSeed, path⟩
    obtain rfl := mem_singleton.mp isSeed
    obtain ⟨path, chain, last⟩ := exists_isChain_cons_of_relationReflTransGen path
    obtain ⟨chain, avoids⟩ := isChain_avoiding_iff.mp chain
    refine ⟨path, chain, ?_, ?_⟩
    · rw [getLast?_eq_some_getLast (cons_ne_nil _ _), last]
    · exact fun member => (mem_cons.mp member).elim (fun same => other same.symm) avoids
  · rintro ⟨path, chain, last, avoids⟩
    rw [mem_cons, not_or] at avoids
    refine ⟨first, mem_singleton_self first, ?_⟩
    refine relationReflTransGen_of_exists_isChain_cons path
      (isChain_avoiding_iff.mpr ⟨chain, avoids.2⟩) ?_
    exact Option.some.inj last

end Arrows

namespace Graph

variable (graph : Graph) (registry : Registry)

def Controls (source target : String) : Prop :=
  ∃ edge ∈ graph.controlEdges registry, edge.source.node = source ∧ edge.target.node = target

def Feeds (source target : String) : Prop :=
  ∃ edge ∈ graph.dataEdges registry, edge.source.node = source ∧ edge.target.node = target

structure LoopScoped (loop pin : String) (scope : LoopScope) : Prop where
  /-- A path of control leads to the body nodes from where the pin leads, past the loop. -/
  executed : ∀ node, node ∈ scope.executed ↔
    ∃ start path, ⟨⟨loop, pin⟩, start⟩ ∈ graph.controlEdges registry ∧
      List.IsChain (graph.Controls registry) (start.node :: path) ∧
      (start.node :: path).getLast? = some node ∧ loop ∉ start.node :: path
  /-- The others read data from the loop or from a body node, over one edge or more. -/
  derived : ∀ node, node ∈ scope.derived ↔
    node ≠ loop ∧ node ∉ scope.executed ∧
      ∃ source, (source = loop ∨ source ∈ scope.executed) ∧
        Relation.TransGen (graph.Feeds registry) source node
  apart : scope.executed.Disjoint scope.derived
  outside : scope.contains loop = false

end Graph

namespace Circuit

variable {registry : Registry} {graph : Graph} {circuit : Circuit}

/-- The arrows that control takes inside the body of a loop. -/
def bodyArrows (circuit : Circuit) (loop : String) : Arrows :=
  circuit.execArrows.filter fun arrow => arrow.2 != loop

def bodyStart (circuit : Circuit) (loop pin : String) : List String :=
  match circuit.execTarget? loop pin with
  | some target => if target.node == loop then [] else [target.node]
  | none => []

section

variable (loaded : load registry graph = .ok circuit)
include loaded

theorem mem_execArrows_iff : (a, b) ∈ circuit.execArrows ↔ graph.Controls registry a b := by
  obtain ⟨-, parts, -, rfl⟩ := load_eq_ok_iff.mp loaded
  simp only [execArrows, Graph.Controls, mem_map, Prod.mk.injEq]

theorem mem_dataArrows_iff : (a, b) ∈ circuit.dataArrows ↔ graph.Feeds registry a b := by
  obtain ⟨-, parts, -, rfl⟩ := load_eq_ok_iff.mp loaded
  simp only [dataArrows, Graph.Feeds, mem_map, Prod.mk.injEq]

theorem mem_executed_iff :
    node ∈ (circuit.loopScope loop pin).executed ↔
      ∃ start path, ⟨⟨loop, pin⟩, start⟩ ∈ graph.controlEdges registry ∧
        List.IsChain (graph.Controls registry) (start.node :: path) ∧
        (start.node :: path).getLast? = some node ∧ loop ∉ start.node :: path := by
  have wires := (indexes_of_load loaded).execTarget loop pin
  have chains : ∀ list, List.IsChain (fun a b => (a, b) ∈ circuit.execArrows) list ↔
      List.IsChain (graph.Controls registry) list :=
    fun list => List.IsChain.iff fun a b => mem_execArrows_iff loaded
  show node ∈ (circuit.bodyArrows loop).reach (circuit.bodyStart loop pin) ↔ _
  rw [mem_reach_iff, bodyStart]
  cases wire : circuit.execTarget? loop pin with
  | none =>
    constructor
    · intro reached
      obtain ⟨first, isSeed, -⟩ := reached_iff.mp reached
      cases isSeed
    · rintro ⟨start, path, known, -⟩
      rw [← wires, wire] at known
      cases known
  | some target =>
    have only : ∀ start, ⟨⟨loop, pin⟩, start⟩ ∈ graph.controlEdges registry ↔ start = target := by
      intro start
      rw [← wires, wire, Option.some.injEq, eq_comm]
    simp only [only, exists_and_left, exists_eq_left]
    by_cases same : target.node = loop
    · simp only [same, beq_self_eq_true, if_true, mem_cons_self, not_true, and_false,
        exists_false, iff_false]
      intro reached
      obtain ⟨first, isSeed, -⟩ := reached_iff.mp reached
      cases isSeed
    · have differs : (target.node == loop) = false := by simpa using same
      simp only [differs, Bool.false_eq_true, if_false]
      rw [bodyArrows, reached_avoiding_iff same]
      simp only [chains]

theorem mem_derived_iff_path :
    node ∈ (circuit.loopScope loop pin).derived ↔
      node ≠ loop ∧ node ∉ (circuit.loopScope loop pin).executed ∧
        ∃ source, (source = loop ∨ source ∈ (circuit.loopScope loop pin).executed) ∧
          Relation.TransGen (graph.Feeds registry) source node := by
  have arrows : (fun a b => (a, b) ∈ circuit.dataArrows) = graph.Feeds registry := by
    funext a b
    exact propext (mem_dataArrows_iff loaded)
  rw [mem_derived_iff, readers, mem_reach_iff, reached_iff, arrows]
  constructor
  · rintro ⟨⟨source, isSeed, path⟩, other, outside⟩
    refine ⟨other, outside, source, mem_cons.mp isSeed, ?_⟩
    -- A node that is no seed is not reached by staying where one is.
    rcases Relation.reflTransGen_iff_eq_or_transGen.mp path with rfl | path
    · exact absurd (mem_cons.mp isSeed) (not_or.mpr ⟨other, outside⟩)
    · exact path
  · rintro ⟨other, outside, source, isSeed, path⟩
    exact ⟨⟨source, mem_cons.mpr isSeed, path.to_reflTransGen⟩, other, outside⟩

theorem loopScoped_of_load (loop pin : String) :
    graph.LoopScoped registry loop pin (circuit.loopScope loop pin) where
  executed _ := mem_executed_iff loaded
  derived _ := mem_derived_iff_path loaded
  apart := by
    intro node body derived
    exact (mem_derived_iff.mp derived).2.2 body
  outside := not_contains_loop circuit loop pin

/-- Control passes on through the exec outputs that a node declares, and through no others. -/
theorem controls_iff_declared :
    graph.Controls registry a b ↔
      ∃ part output target, circuit.part? a = some part ∧ output ∈ part.schema.execOutputs ∧
        circuit.execTarget? a output.id = some target ∧ target.node = b := by
  have wires := (indexes_of_load loaded).execTarget
  constructor
  · rintro ⟨⟨⟨_, pin⟩, target⟩, member, rfl, rfl⟩
    have wire := (wires _ _ _).mpr member
    obtain ⟨part, -, output, -, found, -, declared, -, exec, -⟩ :=
      (wired_of_load loaded).exec _ (mem_of_execTarget? wire)
    have named : output.id = pin := by simpa using find?_some declared
    refine ⟨part, output, target, found, ?_, named ▸ wire, rfl⟩
    exact mem_filter.mpr ⟨mem_of_find?_eq_some declared, exec⟩
  · rintro ⟨part, output, target, -, -, wire, rfl⟩
    exact ⟨_, (wires _ _ _).mp wire, rfl, rfl⟩

end

/-- The scope of a loop is exact. The steps of control along which it is found are those
through declared exec outputs, and both searches end: the first makes at most one visit
more than there are exec edges, the second at most one visit for the loop, for each body
node and for each data edge. -/
theorem loopScope_exact (loaded : load registry graph = .ok circuit) (loop pin : String) :
    graph.LoopScoped registry loop pin (circuit.loopScope loop pin) ∧
      (∀ a b, graph.Controls registry a b ↔
        ∃ part output target, circuit.part? a = some part ∧ output ∈ part.schema.execOutputs ∧
          circuit.execTarget? a output.id = some target ∧ target.node = b) ∧
      (∃ visits ≤ 1 + circuit.execEdges.length,
        (circuit.bodyArrows loop).Searches visits [] (circuit.bodyStart loop pin)
          (circuit.loopScope loop pin).executed) ∧
      ∃ visits ≤ 1 + (circuit.loopScope loop pin).executed.length + circuit.dataEdges.length,
        circuit.dataArrows.Searches visits [] (loop :: (circuit.loopScope loop pin).executed)
          (circuit.readers loop pin) := by
  refine ⟨loopScoped_of_load loaded loop pin, fun _ _ => controls_iff_declared loaded, ?_, ?_⟩
  · obtain ⟨visits, few, searches⟩ :=
      Arrows.searches_reach (circuit.bodyArrows loop) (circuit.bodyStart loop pin)
    refine ⟨visits, Nat.le_trans few (Nat.add_le_add ?_ ?_), searches⟩
    · rw [bodyStart]
      split
      · split <;> simp
      · simp
    · rw [bodyArrows]
      exact Nat.le_trans (List.length_filter_le _ _) (Nat.le_of_eq (List.length_map _))
  · obtain ⟨visits, few, searches⟩ :=
      Arrows.searches_reach circuit.dataArrows (loop :: (circuit.loopScope loop pin).executed)
    refine ⟨visits, Nat.le_trans few (Nat.le_of_eq ?_), searches⟩
    rw [dataArrows, List.length_map, List.length_cons, Nat.add_comm 1]

/-- A loop whose body goes round in a circle and back to the loop, with two data nodes that
read from each other. -/
def circlingLoop : Graph where
  id := "circles"
  nodes := [
    { id := "start", kind := "on_event" },
    { id := "list", kind := "constant", config := [("value", .arr [.int 1, .int 2])] },
    { id := "each", kind := "for_each" },
    { id := "twice", kind := "sequence" },
    { id := "say", kind := "log" },
    { id := "pair", kind := "make_array" },
    { id := "wrap", kind := "make_array" },
    { id := "late", kind := "log" }]
  edges := [
    ⟨⟨"start", "then"⟩, ⟨"each", "exec"⟩⟩, ⟨⟨"list", "value"⟩, ⟨"each", "array"⟩⟩,
    ⟨⟨"each", "loop_body"⟩, ⟨"twice", "exec"⟩⟩, ⟨⟨"twice", "then_0"⟩, ⟨"say", "exec"⟩⟩,
    ⟨⟨"say", "then"⟩, ⟨"twice", "exec"⟩⟩, ⟨⟨"twice", "then_1"⟩, ⟨"each", "exec"⟩⟩,
    ⟨⟨"each", "completed"⟩, ⟨"late", "exec"⟩⟩, ⟨⟨"each", "element"⟩, ⟨"pair", "item_0"⟩⟩,
    ⟨⟨"pair", "array"⟩, ⟨"wrap", "item_0"⟩⟩, ⟨⟨"wrap", "array"⟩, ⟨"pair", "item_1"⟩⟩,
    ⟨⟨"wrap", "array"⟩, ⟨"say", "message"⟩⟩, ⟨⟨"wrap", "array"⟩, ⟨"late", "message"⟩⟩]

theorem loopScope_exact_circlingLoop :
    (Circuit.ofGraph circlingLoop).loopScope "each" "loop_body" =
        ⟨["say", "twice"], ["late", "wrap", "pair"]⟩ ∧
      circlingLoop.LoopScoped Registry.builtin "each" "loop_body"
        ⟨["say", "twice"], ["late", "wrap", "pair"]⟩ := by
  have loaded : load Registry.builtin circlingLoop = .ok (.ofGraph circlingLoop) := rfl
  have scope : (Circuit.ofGraph circlingLoop).loopScope "each" "loop_body" =
      ⟨["say", "twice"], ["late", "wrap", "pair"]⟩ := rfl
  exact ⟨scope, scope ▸ (loopScope_exact loaded "each" "loop_body").1⟩

end Circuit

end Pinflow
