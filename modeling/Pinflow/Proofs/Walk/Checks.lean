import Pinflow.Proofs.Walk.Upkeep

/-!
# Checks of the token

A walk over nodes of whatever kinds begins nothing without having just asked whether it
has been cancelled: no evaluator, no executor and no pause. What it does without asking
belongs to an executor that has not returned yet, writes the overrides of a pause, or only
takes control along a pin. It opens one session at most, pauses in it at once, and in no
other.
-/

namespace Pinflow.Walk

variable {q : Query} {other walker : Walker} {depth : Nat} {past : Past}

/-- The questions of a past, latest first. -/
def questions (past : Past) : List Query := past.map Exchange.query

@[simp] theorem questions_cons (q : Query) (answer : q.Answer) (past : Past) :
    questions (⟨q, answer⟩ :: past) = q :: questions past := rfl

/-- How many executors have begun and not returned. -/
def running : List Query → Nat
  | [] => 0
  | .announce ⟨.executing _, _⟩ :: asked => running asked + 1
  | .announce ⟨.executed _ _, _⟩ :: asked => running asked - 1
  | _ :: asked => running asked

/-- Nothing but variables has been written since a pause. -/
def Overriding : List Query → Prop
  | .pause _ _ _ :: _ => True
  | .announce ⟨.assigned _ _, _⟩ :: asked => Overriding asked
  | _ => False

def Begins : Query → Prop
  | .visit _ _ | .openSession | .pause _ _ _ => True
  | .announce ⟨.executing _, _⟩ | .announce ⟨.evaluating _ _, _⟩ => True
  | _ => False

/-- Questions that begin nothing, after the questions `asked` before: they take control
along a pin, write an override, or belong to an executor that has not returned. -/
def Remains (asked : List Query) : Query → Prop
  | .isCancelled | .exhausted => True
  | .announce ⟨.traversing _, _⟩ | .announce ⟨.followed _ _, _⟩
  | .announce ⟨.traversed _ _, _⟩ => True
  | .announce ⟨.assigned _ _, _⟩ => 0 < running asked ∨ Overriding asked
  | .visit _ _ | .openSession | .pause _ _ _ => False
  | .announce ⟨.executing _, _⟩ | .announce ⟨.evaluating _ _, _⟩ => False
  | _ => 0 < running asked

/-- The token has just been found uncancelled; only the debugger has been asked since. -/
def Cleared : Past → Prop
  | ⟨.isCancelled, cancelled⟩ :: _ => cancelled = false
  | ⟨.visit _ _, _⟩ :: past | ⟨.openSession, _⟩ :: past => Cleared past
  | _ => False

def opened : Past → Option String
  | [] => none
  | ⟨.openSession, session⟩ :: _ => some session
  | _ :: past => opened past

theorem isSome_opened_append (newer : Past) (isOpen : (opened past).isSome = true) :
    (opened (newer ++ past)).isSome = true := by
  induction newer with
  | nil => exact isOpen
  | cons exchange newer ih =>
    obtain ⟨q, answer⟩ := exchange
    cases q with
    | openSession => rfl
    | _ => exact ih

def JustOpened : Past → Prop
  | ⟨.openSession, _⟩ :: _ => True
  | _ => False

structure Careful (q : Query) (past : Past) : Prop where
  begins : Begins q → Cleared past
  remains : Begins q ∨ Remains (questions past) q
  opens : q = .openSession → opened past = none
  pauses : ∀ session node snapshot, q = .pause session node snapshot → opened past = some session
  prompt : JustOpened past → ∃ session node snapshot, q = .pause session node snapshot

/-- The walk is in the session it opened some time ago, and `depth` executors have not
returned. -/
structure Attended (depth : Nat) (walker : Walker) (past : Past) : Prop where
  session : walker.session = opened past
  running : running (questions past) = depth
  settled : ¬ JustOpened past

/-- Questions that open no session, and no executor begins or returns with them. -/
def SameLevel : Query → Prop
  | .openSession => False
  | .announce ⟨.executing _, _⟩ | .announce ⟨.executed _ _, _⟩ => False
  | _ => True

/-- Questions that belong to an executor. -/
def Continues : Query → Prop
  | .act _ _ | .ticket => True
  | .announce ⟨.executed _ _, _⟩ | .announce ⟨.evaluated _ _, _⟩ | .announce ⟨.supplied _ _ _, _⟩
  | .announce ⟨.read _ _, _⟩ | .announce ⟨.stored _ _, _⟩ | .announce ⟨.reentered _ _, _⟩
  | .announce ⟨.refreshed _ _, _⟩ | .announce ⟨.noted _ _, _⟩ => True
  | _ => False

namespace Attended

variable (attended : Attended depth walker past)
include attended

theorem careful_of_remains (idle : ¬ Begins q) (remains : Remains (questions past) q) :
    Careful q past := by
  refine ⟨fun begins => absurd begins idle, .inr remains, ?_, ?_, ?_⟩
  · rintro rfl
    exact absurd trivial idle
  · rintro session node snapshot rfl
    exact absurd trivial idle
  · exact fun opened => absurd opened attended.settled

theorem careful_of_cleared (begins : Begins q) (cleared : Cleared past) (opens : q ≠ .openSession)
    (pauses : ∀ session node snapshot, q ≠ .pause session node snapshot) : Careful q past :=
  ⟨fun _ => cleared, .inl begins, fun same => absurd same opens,
    fun session node snapshot same => absurd same (pauses session node snapshot),
    fun opened => absurd opened attended.settled⟩

theorem cons {answer : q.Answer} (level : SameLevel q) :
    Attended depth walker (⟨q, answer⟩ :: past) := by
  cases q with
  | openSession => exact level.elim
  | announce moment =>
    obtain ⟨happening, told⟩ := moment
    cases happening <;> first | exact level.elim | exact ⟨attended.session, attended.running, id⟩
  | _ => exact ⟨attended.session, attended.running, id⟩

/-- What the session does not depend on may change. -/
theorem update (same : other.session = walker.session) : Attended depth other past :=
  ⟨same.trans attended.session, attended.running, attended.settled⟩

/-- A change of the walker that is told of. -/
theorem announced {happening : Happening} (same : other.session = walker.session)
    (level : SameLevel (.announce ⟨happening, other⟩)) :
    Attended depth other (told happening other :: past) := (attended.update same).cons level

/-- Inside of an executor. -/
theorem careful (inside : 0 < depth) (continues : Continues q) : Careful q past := by
  have positive : 0 < Walk.running (questions past) := attended.running ▸ inside
  cases q with
  | act | ticket => exact attended.careful_of_remains id positive
  | announce moment =>
    obtain ⟨happening, told⟩ := moment
    cases happening <;>
      first | exact continues.elim | exact attended.careful_of_remains id positive
  | _ => exact continues.elim

end Attended

variable {setting : Setting} {inner : Server}

/-- Calls that control may make outside of an executor. -/
def Controls : Call → Prop
  | .run _ | .traverse _ _ => True
  | _ => False

/-- A server puts its questions where they may be, and every executor it starts returns. -/
def Checks (inner : Server) : Prop :=
  ∀ c depth walker past, (0 < depth ∨ Controls c) → Attended depth walker past →
    WP Careful (inner c) (fun _ => Attended depth) walker past

theorem looks_attended (attended : Attended depth walker past) :
    Looks Careful setting (Attended depth) (fun _ => Attended depth) walker past :=
  .of_asks ⟨attended.careful_of_remains id trivial, fun _ => attended.cons trivial⟩

/-- A variable may be written: inside of an executor, or as an override. -/
structure Writes (depth : Nat) (walker : Walker) (past : Past) : Prop where
  attended : Attended depth walker past
  may : 0 < depth ∨ Overriding (questions past)

theorem assign_attended (path : String) (value : Value) (writes : Writes depth walker past) :
    WP Careful (assign setting path value) (fun _ => Writes depth) walker past := by
  refine WP.change_iff.mpr ⟨writes.attended.careful_of_remains id ?_,
    writes.attended.announced rfl trivial, writes.may⟩
  exact writes.may.imp (fun positive => writes.attended.running ▸ positive) id

theorem assignAll_attended (list : List (String × Value))
    (may : Overriding (questions past)) (attended : Attended depth walker past) :
    WP Careful (assignAll setting list) (fun _ => Attended depth) walker past :=
  (WP.assignAll_of_invariant (fun path value _ _ => assign_attended path value) list
    ⟨attended, .inr may⟩).mono fun _ _ _ writes => writes.attended

theorem pauseAt_attended (node : String) (hits : Nat) (cleared : Cleared past)
    (attended : Attended depth walker past) :
    WP Careful (ExceptT.run (pauseAt setting node hits)) (fun _ => Attended depth) walker past := by
  rw [WP.pauseAt_iff, WP.ensureSession_iff]
  cases same : walker.session with
  | some session =>
    have isOpen : opened past = some session := attended.session.symm.trans same
    refine ⟨⟨fun _ => cleared, .inl trivial, by simp, ?_, fun _ => ⟨_, _, _, rfl⟩⟩,
      fun overrides => ?_, ?_⟩
    · rintro _ _ _ ⟨⟩
      exact isOpen
    · exact assignAll_attended overrides trivial (attended.cons trivial)
    · exact attended.cons trivial
  | none =>
    have none : opened past = none := attended.session.symm.trans same
    refine ⟨⟨fun _ => cleared, .inl trivial, fun _ => none, nofun,
      fun opened => absurd opened attended.settled⟩, fun session => ?_⟩
    -- In the session that has just been opened.
    have paused : ∀ snapshot command, Attended depth { walker with session := some session }
        (⟨.pause session node snapshot, command⟩ :: ⟨.openSession, session⟩ :: past) :=
      fun _ _ => ⟨rfl, attended.running, id⟩
    refine ⟨⟨fun _ => cleared, .inl trivial, by simp, ?_, fun _ => ⟨_, _, _, rfl⟩⟩,
      fun overrides => ?_, ?_⟩
    · rintro _ _ _ ⟨⟩
      rfl
    · exact assignAll_attended overrides trivial (paused _ _)
    · exact paused _ _

theorem checkpoint_attended (node : String) (cleared : Cleared past)
    (attended : Attended depth walker past) :
    WP Careful (ExceptT.run (checkpoint setting node)) (fun _ => Attended depth) walker past := by
  refine WP.checkpoint_iff.mpr
    ⟨attended.careful_of_cleared trivial cleared (by simp) (by simp), ?_, fun hits => ?_⟩
  · exact attended.cons trivial
  · exact pauseAt_attended node hits cleared (attended.cons trivial)

section inner

variable (checks : Checks inner)
include checks

theorem perform_attended {α : Type} (script : Script α) (inside : 0 < depth)
    (attended : Attended depth walker past) :
    WP Careful (perform inner script) (fun _ => Attended depth) walker past :=
  WP.perform_of_invariant (fun c walker past => checks c depth walker past (.inl inside)) script
    attended

theorem compute_attended (source : PinRef) (part : Part) (inside : 0 < depth)
    (cleared : Cleared past) (attended : Attended depth walker past) :
    WP Careful (ExceptT.run (compute inner source part)) (fun _ => Attended depth) walker past := by
  refine WP.compute_iff.mpr
    ⟨attended.careful_of_cleared trivial cleared (by simp) (by simp), ?_⟩
  have attended : Attended depth { walker with resolving := source.node :: walker.resolving }
      (told (.evaluating source part.node.config) walker :: past) :=
    Attended.update (attended.cons trivial) rfl
  refine (perform_attended checks _ inside attended).mono ?_
  intro result walker past attended
  have attended : Attended depth { walker with resolving := walker.resolving.tail } past :=
    attended.update rfl
  refine ⟨attended.careful inside trivial, ?_⟩
  cases result with
  | error => exact attended.cons trivial
  | ok => exact Attended.update (attended.cons trivial) rfl

theorem pulls_attended (inside : 0 < depth) :
    Pulls Careful setting inner (Attended depth) fun _ => Attended depth where
  counted _ _ _ attended := attended.update rfl
  looks := looks_attended
  compute _ _ _ attended := upheld_const ▸ compute_attended checks _ _ inside rfl attended
  read _ _ _ _ attended := by
    rw [upheld_const] at *
    exact ⟨attended.careful inside trivial, attended.cons trivial⟩
  supplied _ _ _ _ _ attended := ⟨attended.careful inside trivial, attended.cons trivial⟩
  raises _ attended := attended

theorem execute_attended (node : String) (part : Part) (cleared : Cleared past)
    (attended : Attended depth walker past) :
    WP Careful (ExceptT.run (execute inner node part))
      (Upheld (Attended depth) fun _ => Attended depth) walker past := by
  refine execute_of_executor (attended.careful_of_cleared trivial cleared (by simp) (by simp)) ?_
    (fun pin walker past => ?_) fun attended => attended
  · have inside : Attended (depth + 1) walker (told (.executing node) walker :: past) :=
      ⟨attended.session, congrArg (· + 1) attended.running, id⟩
    refine (perform_attended checks _ (Nat.succ_pos depth) inside).mono ?_
    intro result walker past attended
    rw [upheld_const]
    exact ⟨attended.careful (Nat.succ_pos depth) trivial, attended.session,
      congrArg (· - 1) attended.running, id⟩
  · rw [upheld_const]
    exact checks (.traverse node pin) depth walker past (.inr trivial)

theorem follows_attended :
    Follows Careful setting inner (Attended depth) (Attended depth) fun _ => Attended depth where
  looks := looks_attended
  ready := looks_attended
  checkpoint node _ _ attended := upheld_const ▸ checkpoint_attended node rfl attended
  execute _ attended := execute_attended checks _ _ rfl attended
  traversing _ _ _ attended := ⟨attended.careful_of_remains id trivial, attended.cons trivial⟩
  followed _ attended := ⟨attended.careful_of_remains id trivial, attended.cons trivial⟩
  traversed _ _ _ _ attended := by
    rw [upheld_const] at *
    exact ⟨attended.careful_of_remains id trivial, attended.cons trivial⟩
  raises _ _ attended := attended

/-- Inside of an executor all calls may be made. -/
theorem keeps_attended (inside : 0 < depth) :
    KeepsCalls Careful setting inner (Attended depth) (Attended depth) where
  asks {q} _ _ simple attended := by
    cases q with
    | isCancelled | exhausted =>
      exact ⟨attended.careful_of_remains id trivial, fun _ => attended.cons trivial⟩
    | act | ticket => exact ⟨attended.careful inside trivial, fun _ => attended.cons trivial⟩
    | _ => exact simple.elim
  supplies := (pulls_attended checks inside).supplies
  follows := follows_attended checks
  changes changes attended := by
    cases changes with
    | assigned path value =>
      obtain ⟨obeys, writes⟩ := WP.change_iff.mp (assign_attended path value ⟨attended, .inl inside⟩)
      exact ⟨obeys, writes.attended⟩
    | _ => exact ⟨attended.careful inside trivial, attended.announced rfl trivial⟩
  note _ _ _ _ attended := ⟨attended.careful inside trivial, attended.cons trivial⟩
  records _ attended := attended.update rfl

theorem answer_checks : Checks (answer setting inner) := by
  intro c depth walker past may attended
  rcases may with inside | controls
  · exact (keeps_attended checks inside).answer c walker past attended
  · cases c with
    | traverse node pin =>
      exact upheld_const ▸ (follows_attended checks).traverse node pin attended
    | run node => exact upheld_const ▸ (follows_attended checks).run node attended
    | _ => exact controls.elim

end inner

theorem serve_checks (depth : Nat) : Checks (serve setting depth) := by
  induction depth with
  | zero =>
    intro c depth walker past may attended
    exact WP.exhausted_iff.mpr (attended.careful_of_remains id trivial)
  | succ depth ih => exact answer_checks ih

/-- Every question of a walk is put where it may be, and at its end the walk is in the
session it opened. -/
theorem start_careful (setting : Setting) (depth : Nat) (entry : String) (context : Context) :
    Dialogue.WP Careful (fun result past => result.2.session = opened past ∧ ¬ JustOpened past)
      (start setting depth entry context) [] := by
  have served : WP Careful (serve setting depth (.run entry)) (fun _ => Attended 0) { context } [] :=
    serve_checks depth _ 0 _ _ (.inr trivial) ⟨rfl, rfl, id⟩
  exact (start_of_served _ served).mono (fun _ _ careful => careful) fun _ _ attended =>
    ⟨attended.session, attended.settled⟩

end Pinflow.Walk
