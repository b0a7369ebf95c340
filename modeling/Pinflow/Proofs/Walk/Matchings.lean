import Pinflow.Proofs.Walk.Parallel

/-!
# Two ways to walk side by side

In `lockstep` both walks are asked, told and paused alike; only what a pause shows to the
outside may differ, and which of its hits a breakpoint counts. In `undisturbed` the first
walk may be paused and is always told to go on, and the second is never paused at all.
-/

namespace Pinflow.Walk

open Dialogue (Paired)

/-- Two walks in the same session that are told the same. -/
def lockstep (session : String) : Matching Query.interface where
  together
    | .isCancelled, .isCancelled => True
    | .visit node vars, .visit node' vars' => node = node' ∧ vars = vars'
    | .openSession, .openSession => True
    | .pause own node _, .pause own' node' _ => own = session ∧ own' = session ∧ node = node'
    | .act action payload, .act action' payload' => action = action' ∧ payload = payload'
    | .announce moment, .announce moment' => moment = moment'
    | .exhausted, .exhausted => True
    | _, _ => False
  answers
    | .isCancelled, .isCancelled => Eq
    | .visit .., .visit .. => fun hit hit' => hit.isSome = hit'.isSome
    | .openSession, .openSession => fun opened opened' => opened = session ∧ opened' = session
    | .pause .., .pause .. => Eq
    | .act .., .act .. => Eq
    | _, _ => fun _ _ => True
  apart _ := False
  replies _ _ := False

def SameSession (session : String) (own other : Option String) : Prop :=
  own = other ∧ ∀ opened ∈ own, opened = session

/-- A walk that is paused and told to go on beside one that is not paused. -/
def undisturbed : Matching Query.interface where
  together
    | .isCancelled, .isCancelled => True
    | .visit node vars, .visit node' vars' => node = node' ∧ vars = vars'
    | .act action payload, .act action' payload' => action = action' ∧ payload = payload'
    | .announce moment, .announce moment' =>
      moment.happening = moment'.happening ∧
        Alike (fun _ other => other = none) moment.walker moment'.walker
    | .exhausted, .exhausted => True
    | _, _ => False
  answers
    | .isCancelled, .isCancelled => fun cancelled cancelled' =>
      cancelled = false ∧ cancelled' = false
    | .visit .., .visit .. => fun _ hit' => hit' = none
    | .act .., .act .. => Eq
    | _, _ => fun _ _ => True
  apart
    | .openSession | .pause .. => True
    | _ => False
  replies
    | .pause .. => fun command => command = .resume []
    | _ => fun _ => True

variable {setting : Setting} {session : String}

theorem Alike.eq {walker other : Walker} (alike : Alike (SameSession session) walker other) :
    walker = other := by
  obtain ⟨context, memo, resolving, own⟩ := walker
  obtain ⟨⟨⟩, ⟨⟩, ⟨⟩, ⟨⟨⟩, -⟩⟩ := alike
  rfl

theorem lockstep_announces : ToldTogether (lockstep session) (SameSession session) :=
  fun _ _ _ alike => congrArg _ alike.eq

/-- The answer to a pause. -/
theorem commanded_lockstep (own : String) (command : Command) :
    Parallel (lockstep session) (SameSession session)
      (ExceptT.run (match command with
        | .resume overrides => assignAll setting overrides
        | .stop => throw (.stopped own) : Guarded Unit)) := by
  cases command with
  | resume overrides => exact .run_lift (assignAll_parallel lockstep_announces overrides)
  | stop => exact .pure (Except.error _)

theorem pauseAt_lockstep {walker : Walker}
    (alike : Alike (SameSession session) walker walker) (node : String) (hits hits' : Nat) :
    Paired (lockstep session) (fun p q => p.1 = q.1 ∧ Alike (SameSession session) p.2 q.2)
      ((ExceptT.run (pauseAt setting node hits)).run walker)
      ((ExceptT.run (pauseAt setting node hits')).run walker) := by
  obtain ⟨context, memo, resolving, own⟩ := walker
  cases own with
  | some own =>
    obtain rfl : own = session := alike.session.2 own rfl
    refine .together ⟨rfl, rfl, rfl⟩ fun command _ same => ?_
    obtain rfl : command = _ := same
    exact commanded_lockstep own command alike
  | none =>
    refine .together trivial fun own own' opened => ?_
    obtain ⟨rfl, rfl⟩ : own = session ∧ own' = session := opened
    refine .together ⟨rfl, rfl, rfl⟩ fun command _ same => ?_
    obtain rfl : command = _ := same
    refine commanded_lockstep _ command ⟨rfl, rfl, rfl, rfl, fun opened member => ?_⟩
    exact (Option.some.inj member).symm

theorem lockstep_respects : Respects (lockstep session) (SameSession session) setting where
  announces := lockstep_announces
  acts _ _ := ⟨rfl, rfl⟩
  acted _ _ _ _ same := same
  exhausted := trivial
  checks := by
    intro walker other alike
    obtain rfl := alike.eq
    refine .together trivial fun cancelled _ same => ?_
    obtain rfl : cancelled = _ := same
    cases cancelled with
    | true | false => exact .done ⟨rfl, alike⟩
  passes := by
    intro node walker other alike
    obtain rfl := alike.eq
    refine .together ⟨rfl, rfl⟩ fun hit hit' same => ?_
    have same : hit.isSome = hit'.isSome := same
    cases hit with
    | none =>
      obtain rfl : hit' = none := by simpa using same
      exact .done ⟨rfl, alike⟩
    | some hits =>
      obtain ⟨hits', rfl⟩ := Option.isSome_iff_exists.mp same.symm
      exact pauseAt_lockstep alike node hits hits'

theorem undisturbed_respects : Respects undisturbed (fun _ other => other = none) setting where
  announces _ _ _ alike := ⟨rfl, alike⟩
  acts _ _ := ⟨rfl, rfl⟩
  acted _ _ _ _ same := same
  exhausted := trivial
  checks := by
    intro walker other alike
    refine .together trivial fun cancelled cancelled' going => ?_
    obtain ⟨rfl, rfl⟩ : cancelled = false ∧ cancelled' = false := going
    exact .done ⟨rfl, alike⟩
  passes := by
    rintro node ⟨context, memo, resolving, own⟩ ⟨_, _, _, _⟩ ⟨⟨⟩, ⟨⟩, ⟨⟩, ⟨⟩⟩
    refine .together ⟨rfl, rfl⟩ fun hit hit' passed => ?_
    obtain rfl : hit' = none := passed
    cases hit with
    | none => exact .done ⟨rfl, rfl, rfl, rfl, rfl⟩
    | some =>
      cases own with
      | some =>
        refine .apart trivial fun command resumed => ?_
        obtain rfl : command = .resume [] := resumed
        exact .done ⟨rfl, rfl, rfl, rfl, rfl⟩
      | none =>
        refine .apart trivial fun own _ => .apart trivial fun command resumed => ?_
        obtain rfl : command = .resume [] := resumed
        exact .done ⟨rfl, rfl, rfl, rfl, rfl⟩

end Pinflow.Walk
