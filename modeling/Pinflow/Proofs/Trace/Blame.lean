import Pinflow.Proofs.Trace.Recording
import Pinflow.Proofs.Walk.Failing

/-!
# Blame

Which steps of a recording carry an error. If a fault was raised while steps were open, these
end with it and carry it, and no other step does. If none was open, the end of the recording
puts the fault on the last step that had begun.
-/

namespace Pinflow

namespace Story

variable {story before later earlier : Story} {fault : Fault} {moment : Moment} {number : Nat}

/-- The steps to blame for a fault: those that are open when it is raised, or else the last
one that has begun. -/
def ToBlame (before : Story) (number : Nat) : Prop :=
  StillOpen number before ∨ before.opened = [] ∧ before.last? = some number

theorem last?_eq_some : story.last? = some number ↔ number + 1 = begun story := by
  rw [last?]
  cases begun story with
  | zero =>
    constructor
    · simp
    · simp
  | succ => exact Option.some_inj.trans (eq_comm.trans Nat.succ_inj.symm)

theorem exists_stillOpen (some : story.opened ≠ []) : ∃ number, StillOpen number story := by
  obtain ⟨entry, member⟩ := List.exists_mem_of_ne_nil _ some
  exact ⟨entry.2, List.mem_map_of_mem member⟩

/-- A step that has begun did so at some moment. -/
theorem exists_beginning (has : number < begun story) :
    ∃ later start earlier heading, story = later ++ start :: earlier ∧
      start.report.begins? = some heading ∧ begun earlier = number := by
  induction story with
  | nil => cases has
  | cons moment story ih =>
    obtain before | now := Nat.lt_or_ge number (begun story)
    · obtain ⟨later, start, earlier, heading, rfl, begins, same⟩ := ih before
      exact ⟨moment :: later, start, earlier, heading, rfl, begins, same⟩
    · cases begins : moment.report.begins? with
      | none =>
        rw [begun, headings_cons, begins] at has
        exact absurd has (Nat.not_lt.mpr now)
      | some heading =>
        rw [begun_cons_of_some begins] at has
        exact ⟨[], moment, story, heading, rfl, begins, by omega⟩

/-- A moment tells of no fault and came before the fault was raised, or it tells of the fault
and came afterwards. -/
theorem Raises.cases (raises : story.Raises before fault)
    (split : story = later ++ moment :: earlier) :
    (moment.happening.fault? = none ∧ ∃ newer, before = newer ++ moment :: earlier) ∨
      (moment.happening.fault? = some fault ∧ ∃ newer, earlier = newer ++ before) := by
  obtain ⟨flawless, after, rfl, since⟩ := raises
  obtain ⟨newer, -, same⟩ | ⟨newer, same, rest⟩ := List.append_eq_append_iff.mp split
  · subst same
    exact .inl ⟨flawless moment (List.mem_append_cons_self), newer, rfl⟩
  · cases newer with
    | nil =>
      subst rest
      exact .inl ⟨flawless moment List.mem_cons_self, [], rfl⟩
    | cons other newer =>
      cases rest
      subst same
      exact .inr ⟨since moment (List.mem_append_cons_self), newer, rfl⟩

end Story

namespace Recorder

open Story

variable {most number : Nat} {story before : Story} {fault : Fault} {step : Step}

variable (raises : story.Raises before fault) (ended : story.opened = [])
include raises ended

/-- When all steps have ended, those that were open when the fault was raised carry it. -/
theorem error_hear (holds : (hear { most } story).steps[number]? = some step) :
    step.error = some fault.message ∧ StillOpen number before ∨
      step.error = none ∧ ¬ StillOpen number before := by
  have has : number < story.begun := (tracks_hear most story).size ▸ lt_size holds
  obtain ⟨later, start, earlier, heading, split, begins, rfl⟩ := exists_beginning has
  cases report : start.report with
  | opening =>
    have closed : ¬ StillOpen (begun earlier) (later ++ start :: earlier) := by
      rw [StillOpen, ← split, ended]
      exact List.not_mem_nil
    obtain ⟨after, ending, inside, other, gives, error, rfl, closes, stack⟩ :=
      exists_closing report closed
    rw [List.append_assoc, List.cons_append] at split
    rw [split, hear_closed report closes stack] at holds
    cases holds
    have told := fault?_of_closing closes
    obtain ⟨plain, newer, rfl⟩ | ⟨tells, newer, same⟩ := raises.cases split
    · rw [plain] at told
      subst told
      exact .inr ⟨rfl, ((ended_of_closing closes stack).append newer).closed⟩
    · rw [tells] at told
      subst told
      refine .inl ⟨rfl, ?_⟩
      by_contra closed
      have ended : Ended (begun earlier) before := ⟨raises.begun ▸ has, closed⟩
      apply (ended.append newer).closed
      rw [← same, StillOpen, stack]
      exact List.mem_cons_self
  | edge =>
    rw [split, hear_edge report] at holds
    cases holds
    obtain ⟨-, newer, rfl⟩ | ⟨tells, -⟩ := raises.cases split
    · exact .inr ⟨rfl, ((ended_of_edge report).append newer).closed⟩
    · rw [begins?_of_fault tells] at begins
      cases begins
  | _ =>
    rw [report] at begins
    cases begins

/-- Some step carries an error exactly if a step was open when the fault was raised. -/
theorem any_error_hear :
    ((hear { most } story).steps.any fun step => step.error.isSome) = true ↔
      before.opened ≠ [] := by
  have tracks := tracks_hear most story
  rw [Array.any_eq_true]
  constructor
  · rintro ⟨number, has, carries⟩ none
    obtain ⟨-, isOpen⟩ | ⟨clean, -⟩ := error_hear raises ended (Array.getElem?_eq_getElem has)
    · rw [StillOpen, none] at isOpen
      cases isOpen
    · rw [clean] at carries
      cases carries
  · intro some
    obtain ⟨number, isOpen⟩ := exists_stillOpen some
    have has : number < (hear { most } story).steps.size := by
      rw [tracks.size, raises.begun]
      exact isOpen.lt
    refine ⟨number, has, ?_⟩
    obtain ⟨carries, -⟩ | ⟨-, closed⟩ := error_hear raises ended (Array.getElem?_eq_getElem has)
    · rw [carries]
      rfl
    · exact absurd isOpen closed

/-- At the end of the recording the steps to blame carry the fault, and no other step
carries anything. -/
theorem error_blame (holds : (hear { most } story).steps[number]? = some step) :
    ((hear { most } story).blame (some fault) number step).error = some fault.message ∧
        before.ToBlame number ∨
      ((hear { most } story).blame (some fault) number step).error = none ∧
        ¬ before.ToBlame number := by
  have tracks := tracks_hear most story
  have carried := error_hear raises ended holds
  by_cases none : before.opened = []
  · have clean : step.error = Option.none := by
      obtain ⟨-, isOpen⟩ | ⟨clean, -⟩ := carried
      · rw [StillOpen, none] at isOpen
        cases isOpen
      · exact clean
    have blames : before.ToBlame number ↔ number + 1 = (hear { most } story).steps.size := by
      rw [ToBlame, StillOpen, none, tracks.size, raises.begun, ← last?_eq_some]
      simp
    rw [blame, if_neg ((any_error_hear raises ended).not.mpr (not_not.mpr none)), blames]
    split
    · rename_i isLast
      exact .inl ⟨rfl, isLast⟩
    · rename_i isOther
      exact .inr ⟨clean, isOther⟩
  · have blames : before.ToBlame number ↔ StillOpen number before := by
      rw [ToBlame]
      simp [none]
    rw [blame, if_pos ((any_error_hear raises ended).mpr none), blames]
    exact carried

end Recorder

namespace Trace

structure Blames (trace : Trace) (before : Story) (fault : Fault) : Prop where
  status : trace.status = .error
  error : trace.error = some fault.message
  blamed : ∀ i, before.ToBlame i ↔
    ∃ step, trace.steps[i]? = some step ∧ step.error = some fault.message
  others : ∀ (i : Nat) (step : Step), trace.steps[i]? = some step → ¬ before.ToBlame i →
    step.error = none

/-- A trace that blames nobody. -/
structure Spotless (trace : Trace) : Prop where
  status : trace.status = .completed
  clean : ∀ step ∈ trace.steps, step.error = none

end Trace

namespace Recorder

open Story

variable {story before : Story} {fault : Fault}

/-- The trace of a run that failed. -/
theorem blames_finalize (most : Nat) (head : Trace) (now : Instant)
    (raises : story.Raises before fault) (ended : story.opened = []) :
    ((hear { most } story).finalize head now (some fault)).Blames before fault := by
  have tracks := tracks_hear most story
  have held := getElem?_finalize (hear { most } story) head now (some fault)
  refine ⟨rfl, rfl, fun i => ⟨fun toBlame => ?_, ?_⟩, ?_⟩
  · have has : i < (hear { most } story).steps.size := by
      rw [tracks.size, raises.begun]
      obtain isOpen | ⟨-, isLast⟩ := toBlame
      · exact isOpen.lt
      · exact Nat.lt_of_succ_le (Nat.le_of_eq (last?_eq_some.mp isLast))
    have holds := Array.getElem?_eq_getElem has
    refine ⟨_, by rw [held, holds, Option.map_some], ?_⟩
    obtain ⟨carries, -⟩ | ⟨-, innocent⟩ := error_blame raises ended holds
    · exact carries
    · exact absurd toBlame innocent
  · rintro ⟨step, isStep, carries⟩
    rw [held] at isStep
    obtain ⟨recorded, holds, rfl⟩ := Option.map_eq_some_iff.mp isStep
    obtain ⟨-, toBlame⟩ | ⟨clean, -⟩ := error_blame raises ended holds
    · exact toBlame
    · rw [clean] at carries
      cases carries
  · intro i step isStep innocent
    rw [held] at isStep
    obtain ⟨recorded, holds, rfl⟩ := Option.map_eq_some_iff.mp isStep
    obtain ⟨-, toBlame⟩ | ⟨clean, -⟩ := error_blame raises ended holds
    · exact absurd toBlame innocent
    · exact clean

/-- The trace of a run that completed. -/
theorem spotless_finalize (most : Nat) (head : Trace) (now : Instant) (flawless : story.Flawless)
    (ended : story.opened = []) :
    ((hear { most } story).finalize head now none).Spotless := by
  refine ⟨rfl, fun step member => ?_⟩
  obtain ⟨i, isStep⟩ := List.mem_iff_getElem?.mp member
  rw [getElem?_finalize] at isStep
  obtain ⟨recorded, holds, rfl⟩ := Option.map_eq_some_iff.mp isStep
  -- No step is open at the end, so none would carry a fault that is raised now.
  obtain ⟨-, isOpen⟩ | ⟨clean, -⟩ :=
    error_hear (flawless.raises (.breakOutsideLoop "")) ended holds
  · rw [StillOpen, ended] at isOpen
    cases isOpen
  · exact clean

end Recorder

end Pinflow
