import Mathlib.Data.Finset.Card
import Mathlib.Data.List.Dedup
import Mathlib.Logic.Relation
import Pinflow.Proofs.Walk.Termination

/-!
# Control comes to its end

Loops go round a bounded number of times, and reading nests no deeper than there are nodes.
What is left is control that follows edges in a circle. Where no control edges form one, every
node that control enters has fewer nodes ahead of it than the one it came from, so a walk ends
as soon as its questions are answered, whatever the answers are and however data is wired.
-/

namespace Pinflow

open Circuit

namespace Circuit

variable {circuit : Circuit} {node next : String}

variable {node pin : String}

/-- An exec output of one node is wired to the other. -/
def LeadsTo (circuit : Circuit) (node next : String) : Prop :=
  ∃ edge ∈ circuit.execEdges, edge.source.node = node ∧ edge.target.node = next

/-- Control never comes back to a node that it has left by an edge. -/
def Onward (circuit : Circuit) : Prop := ∀ node, ¬ Relation.TransGen circuit.LeadsTo node node

open Classical in
/-- The nodes that control can still come to from a node. -/
noncomputable def ahead (circuit : Circuit) (node : String) : Finset String :=
  (circuit.parts.map fun part => part.node.id).toFinset.filter
    (Relation.TransGen circuit.LeadsTo node)

theorem mem_ahead {other : String} :
    other ∈ circuit.ahead node ↔
      (∃ part ∈ circuit.parts, part.node.id = other) ∧
        Relation.TransGen circuit.LeadsTo node other := by
  simp [ahead]

/-- Every step of control leaves fewer nodes ahead. -/
theorem card_ahead_lt (onward : circuit.Onward) (leads : circuit.LeadsTo node next)
    (present : ∃ part ∈ circuit.parts, part.node.id = next) :
    (circuit.ahead next).card < (circuit.ahead node).card := by
  apply Finset.card_lt_card
  rw [Finset.ssubset_iff_of_subset]
  · refine ⟨next, mem_ahead.mpr ⟨present, .single leads⟩, ?_⟩
    intro member
    exact onward next (mem_ahead.mp member).2
  · intro other member
    obtain ⟨isPart, reaches⟩ := mem_ahead.mp member
    exact mem_ahead.mpr ⟨isPart, .head leads reaches⟩

/-- No node is ahead of itself. -/
theorem card_ahead_lt_length (onward : circuit.Onward)
    (present : ∃ part ∈ circuit.parts, part.node.id = node) :
    (circuit.ahead node).card < circuit.parts.length := by
  classical
  let ids := (circuit.parts.map fun part => part.node.id).toFinset
  have smaller : circuit.ahead node ⊂ ids := by
    rw [Finset.ssubset_iff_of_subset]
    · refine ⟨node, by simpa [ids] using present, ?_⟩
      intro member
      exact onward node (mem_ahead.mp member).2
    · intro other member
      simpa [ids] using (mem_ahead.mp member).1
  calc (circuit.ahead node).card
    _ < ids.card := Finset.card_lt_card smaller
    _ ≤ (circuit.parts.map fun part => part.node.id).length := List.toFinset_card_le _
    _ = circuit.parts.length := List.length_map _

end Circuit

namespace Walk

/-- A server with room for the executors of all nodes that have few enough nodes ahead. -/
def Ample (circuit : Circuit) (room : Nat) (inner : Server) : Prop :=
  ∀ part c walker past, Part.Asks part c →
    circuit.parts.length + (circuit.ahead part.node.id).card < room → walker.resolving = [] →
    WP Bounded (inner c) (fun _ after _ => after.resolving = []) walker past

variable {setting : Setting} {inner : Server} {room : Nat} {walker : Walker} {past : Past}

theorem looks_bounded (rest : walker.resolving = []) :
    Looks Bounded setting (fun after _ => after.resolving = [])
      (fun _ after _ => after.resolving = []) walker past :=
  .of_asks ⟨by simp [Bounded], fun _ => rest⟩

theorem checkpoint_bounded (rest : walker.resolving = []) :
    WP Bounded (ExceptT.run (checkpoint setting node)) (Upheld (fun after _ => after.resolving = [])
      fun _ after _ => after.resolving = []) walker past := by
  refine checkpoint_upheld (fun pausing rest => ⟨?_, fun _ => rest⟩) (fun _ _ _ rest => rest)
    (fun _ _ _ _ rest => WP.change_iff.mpr ⟨by simp [Bounded], rest⟩) (fun _ _ _ rest => rest) rest
  rintro rfl
  exact pausing.elim

section control

variable (wired : Wired Registry.builtin setting.circuit)
  (ample : Ample setting.circuit room inner)

include wired ample

theorem execute_bounded {part : Part} (found : setting.circuit.part? node = some part)
    (left : setting.circuit.parts.length + (setting.circuit.ahead node).card < room)
    (rest : walker.resolving = []) :
    WP Bounded (ExceptT.run (execute inner node part)) (fun _ after _ => after.resolving = [])
      walker past := by
  obtain ⟨known, bound⟩ := wired.bound_of_part? found
  have own : part.node.id = node := id_of_part? found
  rw [← own] at left
  rw [← upheld_const]
  refine execute_of_executor (by simp [Bounded]) ?_ (fun pin after past rest => ?_)
    fun rest => rest
  · refine (WP.perform_of_meets (fun walker _ => walker.resolving = []) ?_
      (Kinds.calls_execute known bound) rest).mono fun _ _ _ kept => ?_
    · intro c walker past asked rest
      refine (ample part c walker past asked left rest).mono fun answer after past kept => ?_
      exact ⟨grants_any c answer, kept⟩
    · exact ⟨by simp [Bounded], upheld_const ▸ kept.2⟩
  · rw [upheld_const]
    exact ample part (.traverse node pin) after past own.symm left rest

theorem run_bounded
    (left : setting.circuit.parts.length + (setting.circuit.ahead node).card < room)
    (rest : walker.resolving = []) :
    WP Bounded (ExceptT.run (run setting inner node)) (fun _ after _ => after.resolving = [])
      walker past := by
  exact run_of_execute (looks_bounded rest) (fun _ rest => rest) checkpoint_bounded looks_bounded
    fun found => execute_bounded wired ample (part_eq_ok_iff.mp found) left

/-- The node that control goes to has fewer nodes ahead, which makes up for the room that
nesting takes. -/
theorem traverse_bounded (onward : setting.circuit.Onward)
    (left : setting.circuit.parts.length + (setting.circuit.ahead node).card ≤ room)
    (rest : walker.resolving = []) :
    WP Bounded (ExceptT.run (traverse setting inner node pin))
      (fun _ after _ => after.resolving = []) walker past := by
  rw [WP.traverse_iff, WP.follow_iff]
  refine ⟨by simp [Bounded], ?_⟩
  cases wire : setting.circuit.execTarget? node pin with
  | none => exact ⟨by simp [Bounded], rest⟩
  | some target =>
    obtain ⟨-, part, -, -, -, found, -⟩ := wired.exec _ (mem_of_execTarget? wire)
    have present : ∃ part ∈ setting.circuit.parts, part.node.id = target.node :=
      ⟨part, List.mem_of_find?_eq_some found, by simpa using List.find?_some found⟩
    have leads : setting.circuit.LeadsTo node target.node :=
      ⟨_, mem_of_execTarget? wire, rfl, rfl⟩
    have fewer := card_ahead_lt onward leads present
    refine ⟨by simp [Bounded], (run_bounded wired ample (by omega) rest).mono ?_⟩
    intro result after past rest
    exact ⟨by simp [Bounded], rest⟩

theorem answer_ample (onward : setting.circuit.Onward) (roomy : Roomy setting.circuit room inner) :
    Ample setting.circuit (room + 1) (answer setting inner) := by
  intro part c walker past asked left rest
  have written : ∀ {happening : Happening} {after : Walker}, after.resolving = walker.resolving →
      Bounded (.announce ⟨happening, after⟩) past ∧ after.resolving = [] :=
    fun same => ⟨by simp [Bounded], same.trans rest⟩
  cases c with
  | input =>
    have nodes := unresolved_le setting.circuit walker
    refine (input_bounded wired roomy (by omega)).mono fun _ after _ kept => ?_
    exact kept.trans rest
  | traverse node =>
    have own : node = part.node.id := asked
    exact traverse_bounded wired ample onward (by rw [own]; omega) rest
  | act => exact WP.ask_iff.mpr ⟨by simp [Bounded], fun _ => rest⟩
  | note => exact WP.announce_iff.mpr (written rfl)
  | assign | store | reenter | refresh => exact WP.change_iff.mpr (written rfl)
  | context | about | persist | log => exact rest
  | _ => exact asked.elim

end control

variable (wired : Wired Registry.builtin setting.circuit) (onward : setting.circuit.Onward)
include wired onward

theorem serve_ample (room : Nat) : Ample setting.circuit room (serve setting room) := by
  induction room with
  | zero => exact fun _ _ _ _ _ impossible => absurd impossible (Nat.not_lt_zero _)
  | succ room ih => exact answer_ample wired ih onward (serve_roomy wired room)

/-- A walk from a node of a circuit whose control edges form no circle never nests too deep. -/
theorem start_bounded {entry : String} (present : setting.circuit.contains entry = true)
    {depth : Nat} (deep : 2 * setting.circuit.parts.length < depth) (context : Context) :
    Dialogue.WP Bounded (fun _ _ => True) (start setting depth entry context) [] := by
  obtain ⟨part, found⟩ := Option.isSome_iff_exists.mp present
  have fewer := card_ahead_lt_length onward
    ⟨part, mem_of_part? found, id_of_part? found⟩
  obtain ⟨room, rfl⟩ : ∃ room, depth = room + 1 := Nat.exists_eq_add_one.mpr (by omega)
  have served : WP Bounded (serve setting (room + 1) (.run entry))
      (fun _ after _ => after.resolving = []) { context } [] :=
    run_bounded wired (serve_ample wired onward room) (by omega) rfl
  exact (start_of_served _ served).mono (fun _ _ bounded => bounded) fun _ _ _ => trivial

end Walk

end Pinflow
