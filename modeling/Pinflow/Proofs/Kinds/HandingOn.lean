import Pinflow.Proofs.Kinds.Conduct
import Pinflow.Proofs.Kinds.Routines

/-!
# Handing on faults

A node that computes makes no calls but for its own inputs, looks around at most and leaves
remarks. What it makes of an input that cannot be had is its own affair: it may hand on the
fault, as all built-in nodes do, or go on without the input.
-/

namespace Pinflow

variable {script : Script (Except Fault α)} {α : Type}

def Call.Fails : (c : Call) → c.Answer → Prop
  | .input _ _, answer | .resolve _ _ _, answer | .output _, answer =>
    ∃ fault, answer = .error fault
  | .traverse _ _, answer | .run _, answer => ∃ fault, answer = .error fault
  | _, _ => False

/-- Calls that pull inputs of one node, look around or leave remarks. -/
def Call.Observes (node : String) : Call → Prop
  | .input other _ | .resolve other _ _ => other = node
  | .context | .memo | .about | .inSession | .isCancelled | .ticket => True
  | .persist _ | .log _ | .note _ _ => True
  | _ => False

/-- A script that ends with a fault as soon as one of its calls does. -/
def Script.HandsOn {α : Type} : Script (Except Fault α) → Prop
  | .done _ => True
  | .ask c next =>
    (∀ answer, c.Fails answer → ∃ fault, next answer = .done (.error fault)) ∧
      ∀ answer, Script.HandsOn (next answer)

theorem Straight.handsOn {acts : Bool} (straight : Straight acts script) : script.HandsOn := by
  induction straight with
  | done => trivial
  | pulls faults _ ih | follows faults _ ih =>
    refine ⟨?_, of_answer faults (fun _ => trivial) ih⟩
    rintro _ ⟨fault, rfl⟩
    exact ⟨fault, faults fault⟩
  | lets _ ih => exact ⟨fun _ failed => failed.elim, ih⟩
  | @plain _ c _ isPlain _ ih =>
    refine ⟨fun answer failed => ?_, ih⟩
    cases c <;> first | exact failed.elim | exact isPlain.elim

/-- Evaluators that only read make none but harmless calls. -/
theorem Reads.meets {volatile : Bool} {node : String} (reads : Reads volatile node script) :
    script.Meets (Call.Observes node) (fun _ _ => True) (fun _ => True) := by
  induction reads with
  | done => trivial
  | context _ _ ih => exact ⟨trivial, fun context _ => ih context⟩
  | input faults _ ih =>
    exact ⟨rfl, fun answer _ => of_answer faults (fun _ => trivial) ih answer⟩

namespace Part

structure Computes (part : Part) : Prop where
  evaluate : ∀ pin, Script.Meets (Call.Observes part.node.id) (fun _ _ => True) (fun _ => True)
    (ExceptT.run (part.kind.evaluate part.node pin))
  execute : Script.Meets (Call.Observes part.node.id) (fun _ _ => True) (fun _ => True)
    (ExceptT.run (part.kind.execute part.node))

structure HandsOn (part : Part) : Prop where
  evaluate : ∀ pin, Script.HandsOn (ExceptT.run (part.kind.evaluate part.node pin))
  execute : Script.HandsOn (ExceptT.run (part.kind.execute part.node))

theorem handsOn_of_builtin {part : Part} (known : part.kind ∈ Kinds.builtin) : part.HandsOn where
  evaluate pin := (Kinds.straight_evaluate part.node known pin).handsOn
  execute := (Kinds.straight_execute part.node known).handsOn

end Part

end Pinflow
