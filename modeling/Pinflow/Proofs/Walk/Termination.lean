import Pinflow.Proofs.Circuit.Wired
import Pinflow.Proofs.Kinds.Conduct
import Pinflow.Proofs.Walk.Upkeep

/-!
# Reading ends

Reading an output starts evaluators, and these read outputs in turn. No node is on the stack
of those being resolved twice, so evaluators nest at most as deep as the circuit has nodes,
however it is wired. A walk that nests no deeper than its bound comes to its end as soon as
its questions are answered.
-/

namespace Pinflow.Walk

variable {source : PinRef} {node pin : String} {circuit : Circuit} {part : Part} {walker : Walker}

/-- Whatever the surroundings answer, the walk comes to its end. -/
def Returns {α : Type} (walk : Walk α) : Prop :=
  ∀ reply : (q : Query) → Past → Option q.Answer,
    (∀ q past, q ≠ .exhausted → (reply q past).isSome = true) →
    ∃ steps past result, Dialogue.follow reply steps [] walk = (past, .done result)

/-- The walk does not nest too deep. -/
def Bounded (q : Query) (_ : Past) : Prop := q ≠ .exhausted

theorem returns_of_bounded {α : Type} {walk : Walk α}
    (bounded : Dialogue.WP Bounded (fun _ _ => True) walk []) : Returns walk := by
  intro reply replies
  generalize ([] : Past) = past at bounded
  induction walk generalizing past with
  | done result => exact ⟨0, past, result, rfl⟩
  | ask q next ih =>
    obtain ⟨answer, answered⟩ := Option.isSome_iff_exists.mp (replies q past bounded.1)
    obtain ⟨steps, last, result, followed⟩ := ih answer _ (bounded.2 answer)
    refine ⟨steps + 1, last, result, ?_⟩
    rw [Dialogue.follow, answered]
    exact followed

def unresolved (circuit : Circuit) (walker : Walker) : Nat :=
  circuit.parts.countP fun part => !walker.resolving.contains part.node.id

theorem unresolved_le (circuit : Circuit) (walker : Walker) :
    unresolved circuit walker ≤ circuit.parts.length := List.countP_le_length

/-- Starting an evaluator leaves fewer nodes. -/
theorem unresolved_push {pushed : Walker} (found : circuit.part? node = some part)
    (fresh : walker.resolving.contains node = false)
    (grown : pushed.resolving = node :: walker.resolving) :
    unresolved circuit pushed < unresolved circuit walker := by
  have own := Circuit.id_of_part? found
  obtain ⟨before, after, split⟩ := List.append_of_mem (Circuit.mem_of_part? found)
  have fewer : ∀ parts : List Part,
      parts.countP (fun part => !(node :: walker.resolving).contains part.node.id) ≤
        parts.countP fun part => !walker.resolving.contains part.node.id := by
    intro parts
    apply List.countP_mono_left
    intro other member
    simp
  have gone : (!(node :: walker.resolving).contains part.node.id) = false := by simp [own]
  have counted : (!walker.resolving.contains part.node.id) = true := by rw [own, fresh]; rfl
  have := fewer before
  have := fewer after
  rw [unresolved, unresolved, grown, split, List.countP_append, List.countP_append]
  rw [List.countP_cons_of_neg (by simpa using gone),
    List.countP_cons_of_pos (by simpa using counted)]
  omega

/-- A server that pulls inputs without nesting deeper than the nodes that are left allow, and
leaves the stack of those being resolved as it was. -/
def Roomy (circuit : Circuit) (room : Nat) (inner : Server) : Prop :=
  ∀ c walker past, (c = .context ∨ ∃ node pin, c = .input node pin) →
    unresolved circuit walker < room →
    WP Bounded (inner c) (fun _ after _ => after.resolving = walker.resolving) walker past

variable {setting : Setting} {inner : Server} {room : Nat} {walker : Walker} {past : Past}
  (wired : Circuit.Wired Registry.builtin setting.circuit)
  (roomy : Roomy setting.circuit room inner)

include wired roomy

theorem compute_bounded {output : Pin} (found : setting.circuit.part? source.node = some part)
    (declared : part.schema.output? source.pin = some output) (plain : output.type.isExec = false)
    (fresh : walker.resolving.contains source.node = false)
    (left : unresolved setting.circuit walker ≤ room) :
    WP Bounded (ExceptT.run (compute inner source part))
      (fun _ after _ => after.resolving = walker.resolving) walker past := by
  obtain ⟨known, bound⟩ := wired.bound_of_part? found
  have conduct : Conduct part.Pulls (fun _ => True) (fun _ => True)
      (part.kind.evaluate part.node source.pin) :=
    Kinds.conduct_evaluate known bound (fun _ _ => trivial) declared plain
  let pushed : Walker := { walker with resolving := source.node :: walker.resolving }
  have fewer : unresolved setting.circuit pushed < room := by
    have smaller : unresolved setting.circuit pushed < unresolved setting.circuit walker :=
      unresolved_push found fresh rfl
    omega
  refine WP.compute_iff.mpr ⟨by simp [Bounded], ?_⟩
  refine (WP.perform_of_meets (fun walker _ => walker.resolving = pushed.resolving) ?_ conduct
    rfl).mono ?_
  · intro c walker past asked same
    rw [unresolved, ← same] at fewer
    have called : c = .context ∨ ∃ node pin, c = .input node pin := by
      cases c with
      | input node pin => exact .inr ⟨node, pin, rfl⟩
      | context => exact .inl rfl
      | _ => exact asked.elim
    refine (roomy c walker past called fewer).mono fun answer after past kept => ?_
    refine ⟨?_, kept.trans same⟩
    exact grants_any c answer
  · rintro result after past ⟨-, same⟩
    have popped : after.resolving.tail = walker.resolving := by rw [same]; rfl
    refine ⟨by simp [Bounded], ?_⟩
    cases result with
    | error => exact popped
    | ok => exact popped

section

variable (isOutput : setting.circuit.DataOutput source)
  (left : unresolved setting.circuit walker ≤ room)
include isOutput left

theorem pull_bounded :
    WP Bounded (ExceptT.run (pull setting inner source))
      (fun _ after _ => after.resolving = walker.resolving) walker past := by
  obtain ⟨part, output, found, declared, plain⟩ := isOutput
  cases remembered : walker.memo.get? source with
  | some => exact (WP.pull_of_found remembered).mpr rfl
  | none =>
    rw [WP.pull_of_missing remembered]
    split
    · trivial
    · rename_i fresh
      refine WP.checkCancelled_iff.mpr ⟨by simp [Bounded], rfl, ?_⟩
      rw [Circuit.part_eq_ok_iff.mpr found]
      exact compute_bounded wired roomy found declared plain (Bool.eq_false_iff.mpr fresh) left

theorem output_bounded :
    WP Bounded (ExceptT.run (output setting inner source))
      (fun _ after _ => after.resolving = walker.resolving) walker past :=
  WP.output_iff.mpr ((pull_bounded wired roomy isOutput left).mono
    fun _ _ _ kept => ⟨by simp [Bounded], kept⟩)

end

theorem resolve_bounded {default : Value} (left : unresolved setting.circuit walker ≤ room) :
    WP Bounded (ExceptT.run (resolve setting inner node pin default))
      (fun _ after _ => after.resolving = walker.resolving) walker past := by
  rw [WP.resolve_iff]
  cases wire : setting.circuit.incoming? node pin with
  | some =>
    have isOutput := wired.dataOutput_of_incoming? wire
    refine (output_bounded wired roomy isOutput left).mono fun result after past kept => ?_
    cases result with
    | error => exact kept
    | ok => exact ⟨by simp [Bounded], kept⟩
  | none =>
    cases setting.circuit.part node with
    | error => rfl
    | ok => exact ⟨by simp [Bounded], rfl⟩

theorem input_bounded (left : unresolved setting.circuit walker ≤ room) :
    WP Bounded (ExceptT.run (input setting inner node pin))
      (fun _ after _ => after.resolving = walker.resolving) walker past := by
  rw [WP.input_iff]
  cases setting.circuit.part node with
  | error => rfl
  | ok part =>
    simp only
    cases part.schema.input? pin with
    | none => trivial
    | some =>
      refine (resolve_bounded wired roomy left).mono fun result after past kept => ?_
      cases result with
      | error => exact kept
      | ok =>
        simp only
        split <;> exact kept

theorem answer_roomy : Roomy setting.circuit (room + 1) (answer setting inner) := by
  rintro c walker past (rfl | ⟨node, pin, rfl⟩) left
  · rfl
  · exact input_bounded wired roomy (Nat.le_of_lt_succ left)

omit roomy

theorem serve_roomy (room : Nat) : Roomy setting.circuit room (serve setting room) := by
  induction room with
  | zero => exact fun _ _ _ _ impossible => absurd impossible (Nat.not_lt_zero _)
  | succ room ih => exact answer_roomy wired ih

/-- Reading an output comes to its end, from whatever state. -/
theorem output_returns (isOutput : setting.circuit.DataOutput source) {bound : Nat}
    (enough : setting.circuit.parts.length ≤ bound) (walker : Walker) :
    Returns ((ExceptT.run (output setting (serve setting bound) source)).run walker) := by
  have left := Nat.le_trans (unresolved_le setting.circuit walker) enough
  have bounded : WP Bounded (ExceptT.run (output setting (serve setting bound) source))
      (fun _ after _ => after.resolving = walker.resolving) walker [] :=
    output_bounded wired (serve_roomy wired bound) isOutput left
  exact returns_of_bounded (bounded.mono fun _ _ _ _ => trivial)

end Pinflow.Walk
