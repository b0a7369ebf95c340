import Pinflow.Circuit.Reach

/-!
# What the worklist finds

`Arrows.reach` makes a bounded number of visits. `mem_reach_iff` says that the bound is
never felt: the nodes found are exactly those that a chain of arrows leads to from a seed.
-/

namespace Pinflow.Arrows

open List

variable {arrows : Arrows} {seeds seen worklist : List String} {node next : String} {visits : Nat}

inductive Reached (arrows : Arrows) (seeds : List String) : String → Prop
  | seed {node : String} (member : node ∈ seeds) : Reached arrows seeds node
  | arrow {node next : String} (before : Reached arrows seeds node)
      (member : (node, next) ∈ arrows) : Reached arrows seeds next

@[simp] theorem mem_targets : next ∈ arrows.targets node ↔ (node, next) ∈ arrows := by
  simp [targets]

/-- The arrows whose source has not been visited. -/
def unseen (arrows : Arrows) (seen : List String) : Arrows :=
  arrows.filter fun arrow => !seen.contains arrow.1

/-- Visiting a node takes its arrows off those unseen and puts their targets on the
worklist. -/
theorem length_unseen_cons (new : node ∉ seen) :
    (arrows.targets node).length + (arrows.unseen (node :: seen)).length =
      (arrows.unseen seen).length := by
  induction arrows with
  | nil => rfl
  | cons arrow arrows ih =>
    simp only [targets, unseen, length_map, filter_cons] at ih ⊢
    by_cases same : arrow.1 = node
    · have fresh : seen.contains arrow.1 = false := by simpa [same] using new
      simp only [same, contains_cons, beq_self_eq_true, Bool.true_or, Bool.not_true] at ih ⊢
      rw [same] at fresh
      simp only [fresh, Bool.not_false, if_true, length_cons] at ih ⊢
      simp only [Bool.false_eq_true, if_false]
      omega
    · have other : (arrow.1 == node) = false := by simpa using same
      simp only [other, contains_cons, Bool.false_or, Bool.false_eq_true, if_false] at ih ⊢
      split
      · simp only [length_cons]
        omega
      · exact ih

/-- With enough visits left, everything on the worklist is found, and whatever is found
has all its targets found. -/
theorem explore_closed (enough : worklist.length + (arrows.unseen seen).length ≤ visits)
    (waiting : ∀ node ∈ seen, ∀ next ∈ arrows.targets node, next ∈ seen ∨ next ∈ worklist) :
    (∀ node, node ∈ seen ∨ node ∈ worklist → node ∈ arrows.explore visits seen worklist) ∧
      ∀ node ∈ arrows.explore visits seen worklist, ∀ next ∈ arrows.targets node,
        next ∈ arrows.explore visits seen worklist := by
  fun_induction explore arrows visits seen worklist with
  | case1 worklist =>
    have empty : worklist = [] := eq_nil_of_length_eq_zero (by omega)
    subst empty
    simpa using waiting
  | case2 => simpa using waiting
  | case3 visits seen node worklist old ih =>
    have old : node ∈ seen := by simpa using old
    have counted : worklist.length + (arrows.unseen seen).length ≤ visits := by
      simp only [length_cons] at enough
      omega
    obtain ⟨found, closed⟩ := ih counted fun a seenA b target => by
      rcases waiting a seenA b target with known | listed
      · exact .inl known
      · rcases mem_cons.mp listed with rfl | listed
        · exact .inl old
        · exact .inr listed
    refine ⟨fun a known => found a ?_, closed⟩
    rcases known with known | listed
    · exact .inl known
    · rcases mem_cons.mp listed with rfl | listed
      · exact .inl old
      · exact .inr listed
  | case4 visits seen node worklist new ih =>
    have new : node ∉ seen := by simpa using new
    have counted : (arrows.targets node ++ worklist).length +
        (arrows.unseen (node :: seen)).length ≤ visits := by
      have count : (arrows.targets node).length + _ = _ := length_unseen_cons new
      simp only [length_append, length_cons] at enough ⊢
      omega
    obtain ⟨found, closed⟩ := ih counted fun a seenA b target => by
      rcases mem_cons.mp seenA with rfl | seenA
      · exact .inr (mem_append_left _ target)
      · rcases waiting a seenA b target with known | listed
        · exact .inl (mem_cons_of_mem _ known)
        · rcases mem_cons.mp listed with rfl | listed
          · exact .inl mem_cons_self
          · exact .inr (mem_append_right _ listed)
    refine ⟨fun a known => found a ?_, closed⟩
    rcases known with known | listed
    · exact .inl (mem_cons_of_mem _ known)
    · rcases mem_cons.mp listed with rfl | listed
      · exact .inl mem_cons_self
      · exact .inr (mem_append_right _ listed)

theorem explore_sound (seenReached : ∀ node ∈ seen, Reached arrows seeds node)
    (listReached : ∀ node ∈ worklist, Reached arrows seeds node) :
    ∀ node ∈ arrows.explore visits seen worklist, Reached arrows seeds node := by
  fun_induction explore arrows visits seen worklist with
  | case1 => exact seenReached
  | case2 => exact seenReached
  | case3 visits seen node worklist _ ih =>
    exact ih seenReached fun a listed => listReached a (mem_cons_of_mem _ listed)
  | case4 visits seen node worklist _ ih =>
    have here : Reached arrows seeds node := listReached node mem_cons_self
    refine ih (fun a known => ?_) fun a listed => ?_
    · rcases mem_cons.mp known with rfl | known
      · exact here
      · exact seenReached a known
    · rcases mem_append.mp listed with target | listed
      · exact .arrow here (mem_targets.mp target)
      · exact listReached a (mem_cons_of_mem _ listed)

/-- The worklist finds exactly what the arrows lead to. -/
theorem mem_reach_iff : node ∈ arrows.reach seeds ↔ Reached arrows seeds node := by
  constructor
  · exact explore_sound (forall_mem_nil _)
      (fun _ listed => .seed listed) node
  · have enough : seeds.length + (arrows.unseen []).length ≤ seeds.length + arrows.length := by
      exact Nat.add_le_add_left (length_filter_le _ _) _
    obtain ⟨found, closed⟩ := explore_closed enough fun _ member =>
      absurd member not_mem_nil
    intro reached
    induction reached with
    | seed member => exact found _ (.inr member)
    | arrow _ member ih => exact closed _ ih _ (mem_targets.mpr member)

theorem mem_reach_of_seed (member : node ∈ seeds) : node ∈ arrows.reach seeds :=
  mem_reach_iff.mpr (.seed member)

theorem mem_reach_of_arrow (before : node ∈ arrows.reach seeds) (member : (node, next) ∈ arrows) :
    next ∈ arrows.reach seeds :=
  mem_reach_iff.mpr (.arrow (mem_reach_iff.mp before) member)

end Pinflow.Arrows
