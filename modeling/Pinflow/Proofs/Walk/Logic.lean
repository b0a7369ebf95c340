import Pinflow.Proofs.Dialogue.Course
import Pinflow.Walk.Serve

/-!
# Reasoning about walks

The weakest precondition of a computation on the state of a walk. The `simp` lemmas
below take a computation apart down to the questions it puts, so verifying an operation
of `Walk` means stating a rule and a postcondition and simplifying.
-/

namespace Pinflow.Walk

variable {f : Walker → Walker} {past : Past} {q : Query} {earlier later : List Happening} {c : Call}

/-- What has been asked and answered in a walk so far, latest first. -/
abbrev Past := History Query.interface

def told (happening : Happening) (walker : Walker) : Exchange Query.interface :=
  ⟨.announce ⟨happening, walker⟩, ()⟩

def happening? : Query → Option Happening
  | .announce moment => some moment.happening
  | _ => none

/-- The happenings of a past, latest first. -/
def happenings (past : Past) : List Happening :=
  past.filterMap fun exchange => happening? exchange.query

@[simp] theorem happenings_told (happening : Happening) (walker : Walker) (past : Past) :
    happenings (told happening walker :: past) = happening :: happenings past := rfl

@[simp] theorem happenings_append (later earlier : Past) :
    happenings (later ++ earlier) = happenings later ++ happenings earlier :=
  List.filterMap_append

/-- Questions that are no announcements leave no happening behind. -/
theorem happenings_cons_of_silent (answer : q.Answer) (past : Past) (silent : happening? q = none) :
    happenings (⟨q, answer⟩ :: past) = happenings past :=
  List.filterMap_cons_none silent

/-- A happening of a past was told of at some point of it. -/
theorem exists_told {happening : Happening}
    (split : happenings past = later ++ happening :: earlier) :
    ∃ after walker before, past = after ++ told happening walker :: before ∧
      happenings after = later ∧ happenings before = earlier := by
  obtain ⟨after, most, rfl, sameLater, most_eq⟩ := List.filterMap_eq_append_iff.mp split
  obtain ⟨silent, ⟨q, answer⟩, before, rfl, quiet, same, sameEarlier⟩ :=
    List.filterMap_eq_cons_iff.mp most_eq
  cases q with
  | announce moment =>
    cases same
    refine ⟨after ++ silent, moment.walker, before, ?_, ?_, sameEarlier⟩
    · rw [List.append_assoc]
      rfl
    · have none : happenings silent = [] := List.filterMap_eq_nil_iff.mpr quiet
      rw [happenings_append, none, List.append_nil]
      exact sameLater
  | _ => cases same

theorem exists_told_of_head? {happening : Happening}
    (last : (happenings past).head? = some happening) :
    ∃ after walker before, past = after ++ told happening walker :: before := by
  obtain ⟨earlier, split⟩ := List.head?_eq_some_iff.mp last
  have split : happenings past = [] ++ happening :: earlier := split
  obtain ⟨after, walker, before, same, -⟩ := exists_told split
  exact ⟨after, walker, before, same⟩

theorem Obeys.happening {rule : Query → Past → Prop} {happening : Happening}
    (obeys : History.Obeys rule past) (split : happenings past = later ++ happening :: earlier) :
    ∃ walker before, happenings before = earlier ∧ rule (.announce ⟨happening, walker⟩) before := by
  obtain ⟨after, walker, before, rfl, -, same⟩ := exists_told split
  exact ⟨walker, before, same, obeys after _ () before rfl⟩

/-- A condition on a result, the state that it comes with and the past. -/
abbrev Post (α : Type) := α → Walker → Past → Prop

/-- The weakest precondition of a computation on the state of a walk. -/
def WP {α : Type} (rule : Query → Past → Prop) (x : Stateful α)
    (post : α → Walker → Past → Prop) (walker : Walker) (past : Past) : Prop :=
  Dialogue.WP rule (fun result past => post result.1 result.2 past) (x.run walker) past

namespace WP

variable {α β : Type} {rule : Query → Past → Prop} {walker : Walker} {past : Past}
  {post : Post (Except Fault α)} {x : Stateful α}

theorem mono {post post' : Post α} (wp : WP rule x post walker past)
    (imp : ∀ a walker past, post a walker past → post' a walker past) :
    WP rule x post' walker past :=
  Dialogue.WP.mono wp (fun _ _ holds => holds) (fun result past => imp result.1 result.2 past)

theorem congr {post post' : Post α}
    (same : ∀ a walker past, post a walker past ↔ post' a walker past) :
    WP rule x post walker past ↔ WP rule x post' walker past :=
  ⟨fun wp => wp.mono fun a walker past => (same a walker past).mp,
    fun wp => wp.mono fun a walker past => (same a walker past).mpr⟩

@[simp] theorem bind_iff {f : α → Stateful β} {post : Post β} :
    WP rule (x >>= f) post walker past ↔
      WP rule x (fun a => WP rule (f a) post) walker past := by
  simp only [WP, StateT.run_bind, Dialogue.WP_bind]

@[simp] theorem map_iff {f : α → β} {post : Post β} :
    WP rule (f <$> x) post walker past ↔ WP rule x (fun a => post (f a)) walker past := by
  rw [map_eq_pure_bind, bind_iff]
  rfl

@[simp] theorem get_iff {post : Post Walker} :
    WP rule (get : Stateful Walker) post walker past ↔ post walker walker past := Iff.rfl

@[simp] theorem modify_iff {post : Post PUnit} :
    WP rule (modify f : Stateful PUnit) post walker past ↔ post ⟨⟩ (f walker) past := Iff.rfl

@[simp] theorem ask_iff {post : Post q.Answer} :
    WP rule (ask q) post walker past ↔
      rule q past ∧ ∀ answer, post answer walker (⟨q, answer⟩ :: past) := by
  simp only [WP, ask, StateT.run_lift, Dialogue.query, Dialogue.ask_bind, Dialogue.done_bind,
    Dialogue.pure_eq_done, Dialogue.WP_ask, Dialogue.WP_done]

@[simp] theorem announce_iff {happening : Happening} {post : Post Unit} :
    WP rule (announce happening) post walker past ↔
      rule (.announce ⟨happening, walker⟩) past ∧
        post () walker (told happening walker :: past) := by
  constructor
  · rintro ⟨obeys, after⟩
    exact ⟨obeys, after ()⟩
  · rintro ⟨obeys, after⟩
    exact ⟨obeys, fun _ => after⟩

@[simp] theorem run_bind_iff {x : Guarded α} {f : α → Guarded β} {post : Post (Except Fault β)} :
    WP rule (ExceptT.run (x >>= f)) post walker past ↔
      WP rule (ExceptT.run x) (fun result walker past =>
        match result with
        | .ok a => WP rule (ExceptT.run (f a)) post walker past
        | .error fault => post (.error fault) walker past) walker past := by
  rw [ExceptT.run_bind, bind_iff]
  refine congr fun result walker past => ?_
  cases result <;> exact Iff.rfl

@[simp] theorem run_pure_iff {a : α} :
    WP rule (ExceptT.run (pure a : Guarded α)) post walker past ↔
      post (.ok a) walker past := Iff.rfl

@[simp] theorem run_throw_iff {fault : Fault} :
    WP rule (ExceptT.run (throw fault : Guarded α)) post walker past ↔
      post (.error fault) walker past := Iff.rfl

@[simp] theorem run_lift_iff :
    WP rule (ExceptT.run (ExceptT.lift x : Guarded α)) post walker past ↔
      WP rule x (fun a => post (.ok a)) walker past := by
  rw [ExceptT.run_lift, map_iff]

@[simp] theorem run_monadLift_iff :
    WP rule (ExceptT.run (monadLift x : Guarded α)) post walker past ↔
      WP rule x (fun a => post (.ok a)) walker past := run_lift_iff

@[simp] theorem run_liftExcept_iff {x : Except Fault α} :
    WP rule (ExceptT.run (liftM x : Guarded α)) post walker past ↔ post x walker past := by
  cases x <;> exact Iff.rfl

@[simp] theorem run_get_iff {post : Post (Except Fault Walker)} :
    WP rule (ExceptT.run (get : Guarded Walker)) post walker past ↔
      post (.ok walker) walker past := Iff.rfl

@[simp] theorem run_set_iff {new : Walker} {post : Post (Except Fault PUnit)} :
    WP rule (ExceptT.run (set new : Guarded PUnit)) post walker past ↔
      post (.ok ⟨⟩) new past := Iff.rfl

@[simp] theorem run_modify_iff {post : Post (Except Fault PUnit)} :
    WP rule (ExceptT.run (modify f : Guarded PUnit)) post walker past ↔
      post (.ok ⟨⟩) (f walker) past := Iff.rfl

/-- Nothing comes after a walk that is nested too deep. -/
@[simp] theorem exhausted_iff {post : Post α} :
    WP rule (exhausted : Stateful α) post walker past ↔ rule .exhausted past := by
  constructor
  · rintro ⟨obeys, -⟩
    exact obeys
  · intro obeys
    exact ⟨obeys, fun nothing => Empty.elim nothing⟩

variable {inner : Server}

@[simp] theorem perform_ask_iff {next : c.Answer → Script α} {post : Post α} :
    WP rule (perform inner (Dialogue.ask c next : Script α)) post walker past ↔
      WP rule (inner c) (fun answer => WP rule (perform inner (next answer)) post) walker past := by
  rw [← bind_iff]
  rfl

@[simp] theorem perform_bind_iff {x : Script α} {f : α → Script β} {post : Post β} :
    WP rule (perform inner (x >>= f)) post walker past ↔
      WP rule (perform inner x) (fun a => WP rule (perform inner (f a)) post) walker past := by
  rw [perform, Dialogue.interpret_bind, bind_iff]
  rfl

@[simp] theorem attempt_iff {routine : Routine α} {post : Post (Except Fault (Except Fault α))} :
    WP rule (ExceptT.run (attempt inner routine)) post walker past ↔
      WP rule (perform inner (ExceptT.run routine)) (fun result => post (.ok result))
        walker past := run_lift_iff

@[simp] theorem perform_call_iff {post : Post c.Answer} :
    WP rule (perform inner (Script.call c)) post walker past ↔
      WP rule (inner c) post walker past := perform_ask_iff

@[simp] theorem routine_bind_iff {x : Routine α} {f : α → Routine β}
    {post : Post (Except Fault β)} :
    WP rule (perform inner (ExceptT.run (x >>= f))) post walker past ↔
      WP rule (perform inner (ExceptT.run x)) (fun result walker past =>
        match result with
        | .ok a => WP rule (perform inner (ExceptT.run (f a))) post walker past
        | .error fault => post (.error fault) walker past) walker past := by
  rw [ExceptT.run_bind, perform_bind_iff]
  refine congr fun result walker past => ?_
  cases result <;> exact Iff.rfl

@[simp] theorem routine_lift_iff {x : Script α} :
    WP rule (perform inner (ExceptT.run (ExceptT.lift x : Routine α))) post walker past ↔
      WP rule (perform inner x) (fun a => post (.ok a)) walker past := by
  rw [ExceptT.run_lift, map_eq_pure_bind, perform_bind_iff]
  rfl

@[simp] theorem routine_liftExcept_iff {x : Except Fault α} :
    WP rule (perform inner (ExceptT.run (liftM x : Routine α))) post walker past ↔
      post x walker past := by
  cases x <;> exact Iff.rfl

/-- What every call preserves, every script preserves. -/
theorem perform_of_invariant {Inv : Walker → Past → Prop}
    (keeps : ∀ c walker past, Inv walker past →
      WP rule (inner c) (fun _ => Inv) walker past)
    (script : Script α) (holds : Inv walker past) :
    WP rule (perform inner script) (fun _ => Inv) walker past := by
  induction script generalizing walker past with
  | done => exact holds
  | ask c next ih =>
    rw [perform_ask_iff]
    exact (keeps c walker past holds).mono fun answer walker past after => ih answer after

end WP

end Pinflow.Walk
