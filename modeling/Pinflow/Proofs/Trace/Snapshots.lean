import Pinflow.Proofs.Trace.Recording
import Pinflow.Proofs.Trace.Roundtrip

/-!
# The values of a recording

Whatever a recorder has heard, the keys of the values in its steps increase. A snapshot was read
from a text or is a marker, and a pin is put into its place; nothing else makes a value of a step.
-/

namespace Pinflow

variable {step : Step} {number : Nat}

theorem Value.ordered_bounded (value : Value) (most : Nat) : (value.bounded most).Ordered := by
  rw [Value.bounded, boundedText]
  split
  · refine .object fun entry member => ?_
    simp only [List.mem_cons, List.not_mem_nil, or_false] at member
    rcases member with rfl | rfl | rfl
    · exact .bool true
    · exact .int _
    · exact .str _
  · cases reads : Value.read? value.render with
    | none => exact .null
    | some => exact (Value.proper_of_read? reads).1.ordered

namespace Recorder

open Story

theorem withPin_eq (inputs : Value) (pin : String) (value : Value) :
    withPin inputs pin value =
      match (inputs.entries.get? "pins").getD (.obj []) with
      | .obj pins => .obj (inputs.entries.insert "pins" (.obj (Fields.insert pins pin value)))
      | _ => .obj inputs.entries := by
  cases inputs <;> rfl

theorem ordered_withPin {inputs value : Value} (ordered : inputs.Ordered) (new : value.Ordered)
    (pin : String) : (withPin inputs pin value).Ordered := by
  have empty : (Value.obj []).Ordered := .object (List.forall_mem_nil _)
  have fields : (Value.obj inputs.entries).Ordered := by
    cases inputs with
    | obj => exact ordered
    | _ => exact empty
  have pins : ((inputs.entries.get? "pins").getD (.obj [])).Ordered := by
    cases found : inputs.entries.get? "pins" with
    | none => exact empty
    | some => exact fields.get? found
  rw [withPin_eq]
  cases isPins : (inputs.entries.get? "pins").getD (.obj []) with
  | obj =>
    rw [isPins] at pins
    exact fields.insert (pins.insert new)
  | _ => exact fields

variable {recorder : Recorder}

theorem ordered_revise (ordered : step.Ordered) (number : Nat) (report : Report) :
    (recorder.revise number report step).Ordered := by
  cases report with
  | closing heading gives =>
    rw [revise]
    split
    · exact ⟨ordered.1, gives.ordered_bounded _⟩
    · exact ordered
  | supply node pin value =>
    rw [revise]
    split
    · exact ⟨ordered_withPin ordered.1 (value.ordered_bounded _) pin, ordered.2⟩
    · exact ordered
  | _ => exact ordered

theorem ordered_fresh? {report : Report} (begins : recorder.fresh? report = some step) :
    step.Ordered := by
  cases report with
  | opening heading given =>
    cases begins
    exact ⟨given.ordered_bounded _, .null⟩
  | edge =>
    cases begins
    exact ⟨Value.ordered_bounded _ _, Value.ordered_bounded _ _⟩
  | _ => cases begins

/-- A report keeps the steps ordered. -/
theorem ordered_heed (report : Report)
    (before : ∀ {number : Nat} {step : Step}, recorder.steps[number]? = some step → step.Ordered)
    (holds : (recorder.heed report).steps[number]? = some step) : step.Ordered := by
  rcases heed_cases holds with ⟨old, isStep, rfl⟩ | ⟨-, begins⟩
  · exact ordered_revise (before isStep) number report
  · exact ordered_fresh? begins

theorem ordered_hear (most : Nat) (story : Story)
    (holds : (hear { most } story).steps[number]? = some step) : step.Ordered := by
  induction story generalizing number step with
  | nil => simp [hear] at holds
  | cons moment story ih =>
    rw [hear_cons] at holds
    exact ordered_heed moment.report ih holds

theorem ordered_finalize (most : Nat) (story : Story) (head : Trace) (now : Instant)
    (fault : Option Fault) (member : step ∈ ((hear { most } story).finalize head now fault).steps) :
    step.Ordered := by
  obtain ⟨number, holds⟩ := List.mem_iff_getElem?.mp member
  rw [getElem?_finalize] at holds
  obtain ⟨before, held, rfl⟩ := Option.map_eq_some_iff.mp holds
  have kept := ordered_hear most story held
  rw [blame_eq]
  exact ⟨kept.1, kept.2⟩

end Recorder

end Pinflow
