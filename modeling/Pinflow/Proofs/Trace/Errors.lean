import Pinflow.Proofs.Trace.Recording

/-!
# Errors in a recording

Whatever calls a recorder gets, a step that was finished with a fault carries it until it is
finished again. At the end of a failed run all steps keep what they carry; if that is nothing,
the last one gets the fault of the run. So no step shows the fault of the run if all that steps
carry is some other fault, from which a node recovered.
-/

namespace Pinflow.Recorder

inductive Call where
  | begin (node : String) (kind : StepKind) (pin : Option String) (inputs : Value)
  | finish (sequence : Nat) (outputs : Value) (error : Option Fault)
  | supply (sequence : Nat) (pin : String) (value : Value)
  | traversal (source target : PinRef)
  | note (node message : String)

def Call.Finishes (number : Nat) : Call → Prop
  | .finish sequence _ _ => sequence = number
  | _ => False

def take (recorder : Recorder) : Call → Recorder
  | .begin node kind pin inputs => recorder.begin node kind pin inputs
  | .finish sequence outputs error => recorder.finish sequence outputs error
  | .supply sequence pin value => recorder.supply sequence pin value
  | .traversal source target => recorder.traversal source target
  | .note node message => recorder.note node message

/-- The recorder after some calls, the latest of which comes first. -/
def after (most : Nat) (calls : List Call) : Recorder :=
  calls.foldr (fun call recorder => recorder.take call) { most }

def errors (recorder : Recorder) : List (Option String) := recorder.steps.toList.map Step.error

/-- What a call makes of the errors of the steps. -/
def Call.mark : Call → List (Option String) → List (Option String)
  | .begin .., errors | .traversal .., errors => errors ++ [none]
  | .finish sequence _ error, errors => errors.set sequence (error.map Fault.message)
  | .supply .., errors | .note .., errors => errors

variable {recorder : Recorder} {number most : Nat} {call : Call} {calls later : List Call}

theorem map_error_modify {mark : Step → Step} {error : Option String}
    (marks : ∀ step, (mark step).error = error) (steps : Array Step) (number : Nat) :
    (steps.modify number mark).toList.map Step.error =
      (steps.toList.map Step.error).set number error := by
  refine List.ext_getElem? fun other => ?_
  simp only [List.getElem?_map, Array.getElem?_toList, Array.getElem?_modify, List.getElem?_set]
  grind

theorem errors_take (recorder : Recorder) (call : Call) :
    (recorder.take call).errors = call.mark recorder.errors := by
  cases call with
  | begin => simp [errors, take, begin, Call.mark]
  | finish => exact map_error_modify (by intro; rfl) ..
  | supply =>
    refine List.ext_getElem? fun number => ?_
    simp only [errors, take, supply, Call.mark, List.getElem?_map, Array.getElem?_toList,
      Array.getElem?_modify]
    grind
  | traversal =>
    refine (map_error_modify (by intro; rfl) ..).trans ?_
    simp [errors, begin, Call.mark]
  | note => rfl

theorem errors_after (most : Nat) (call : Call) (calls : List Call) :
    (after most (call :: calls)).errors = call.mark (after most calls).errors :=
  errors_take _ call

/-- A call changes the error of no step but the one that it finishes. -/
theorem join_mark (errors : List (Option String)) (other : ¬ call.Finishes number) :
    (call.mark errors)[number]?.join = errors[number]?.join := by
  cases call with
  | begin | traversal =>
    simp only [Call.mark]
    grind
  | finish => exact congrArg Option.join (List.getElem?_set_ne other)
  | supply | note => rfl

theorem join_after (others : ∀ call ∈ later, ¬ call.Finishes number) :
    (after most (later ++ calls)).errors[number]?.join =
      (after most calls).errors[number]?.join := by
  induction later with
  | nil => rfl
  | cons call later ih =>
    obtain ⟨other, others⟩ := List.forall_mem_cons.mp others
    rw [List.cons_append, errors_after, join_mark _ other, ih others]

/-- At the end every step keeps what it carries, and if that is nothing the last step gets the
fault of the run. -/
theorem errors_finalize (recorder : Recorder) (head : Trace) (now : Instant) (fault : Fault) :
    (recorder.finalize head now (some fault)).steps.map Step.error =
      if recorder.errors.all Option.isNone then
        recorder.errors.set (recorder.errors.length - 1) (some fault.message)
      else recorder.errors := by
  have clean : recorder.errors.all Option.isNone =
      !(recorder.steps.any fun step => step.error.isSome) := by
    rw [errors, List.all_map, ← Array.any_toList, List.not_any_eq_all_not]
    congr 1
    funext step
    show step.error.isNone = !step.error.isSome
    cases step.error <;> rfl
  simp only [finalize, clean]
  split
  · simp [errors, *]
  · refine (map_error_modify (by intro; rfl) ..).trans ?_
    simp [errors, *]

/-- What the steps of a failed run show, and when one of them shows the fault of the run. -/
theorem fault_shown_iff (most : Nat) (calls : List Call) (head : Trace) (now : Instant)
    (fault : Fault) :
    let carried := (after most calls).errors
    let trace := (after most calls).finalize head now (some fault)
    let shown := trace.steps.map Step.error
    trace.status = .error ∧ trace.error = some fault.message ∧
      (∀ number, (∀ call ∈ calls, ¬ call.Finishes number) → carried[number]?.join = none) ∧
      (∀ later earlier number outputs error,
        calls = later ++ .finish number outputs error :: earlier →
        number < (after most earlier).errors.length → (∀ call ∈ later, ¬ call.Finishes number) →
        carried[number]?.join = error.map Fault.message) ∧
      shown = (if carried.all Option.isNone then
        carried.set (carried.length - 1) (some fault.message) else carried) ∧
      (shown ≠ [] → (some fault.message ∈ shown ↔
        carried.all Option.isNone = true ∨ some fault.message ∈ carried)) := by
  intro carried trace shown
  have ends : shown = _ := errors_finalize (after most calls) head now fault
  refine ⟨rfl, rfl, fun number others => ?_, ?_, ends, fun nonempty => ?_⟩
  · have same : (after most (calls ++ [])).errors[number]?.join = none := join_after others
    rwa [List.append_nil] at same
  · rintro later earlier number outputs error rfl has others
    refine (join_after others).trans ?_
    rw [errors_after]
    exact congrArg Option.join (List.getElem?_set_self has)
  · rw [ends] at nonempty ⊢
    split
    · rename_i clean
      rw [if_pos clean, ← List.length_pos_iff, List.length_set] at nonempty
      exact iff_of_true (List.mem_set (Nat.sub_one_lt_of_lt nonempty) _) (.inl clean)
    · rename_i carries
      exact ⟨.inr, fun shows => shows.resolve_left carries⟩

/-- The first step failed, and the run goes on to fail for another reason. -/
theorem fault_hidden_by_recovered :
    let trace := (after 100 [.finish 1 .null none, .begin "b" .execution none .null,
      .finish 0 .null (some (.missingInput "a" "in")), .begin "a" .execution none .null]).finalize
        { id := "trace", graph := "g", invocation := "inv", started := ⟨0, 0, 0⟩ } ⟨0, 0, 0⟩
        (some (.missingInput "b" "in"))
    trace.steps.length = 2 ∧ ∀ step ∈ trace.steps, step.error ≠ trace.error := by
  decide +kernel

end Pinflow.Recorder
