import Pinflow.Proofs.Desk.Cancellation
import Pinflow.Proofs.Desk.Ledgers

/-!
# Refused commands

A breakpoint that cannot be set, a resume that finds nobody and a stop of no session publish
nothing. They change nothing either, with one exception: a resume of a session whose invocation
was dropped in its pause. It is refused, and the session counts as running from then on.
-/

namespace Pinflow

section

variable {birth : Birth} {invocation : Invocation} {log : List Deed} {world : Surroundings}
  {session : Session} {past : Walk.Past}

theorem Ledger.rapport (ledger : Ledger birth world log invocation)
    (kept : Kept birth world log invocation past) (undropped : invocation.stage ≠ .dropped)
    (present : world.debugger.session? birth.session = some session) :
    ∃ phase, Rapport birth invocation.cancelled log session phase := by
  have reckoned := ledger.reckoned
  obtain ⟨standing, rest, follows, stands, seated⟩ := kept
  rw [Reckoned] at reckoned
  rw [Seated, follows.session_eq] at seated
  cases stage : invocation.stage with
  | paused =>
    simp only [stage] at reckoned
    exact reckoned.rapport present
  | waiting =>
    simp only [stage] at reckoned
    exact reckoned.1.rapport present
  | finished | refused =>
    simp only [stage] at seated
    cases seated.symm.trans present
  | dropped => exact absurd stage undropped

end

namespace Desk

variable {desk : Desk} {moves : List Move} {session : Session} {id : String}

def Deserted (desk : Desk) (id : String) : Prop :=
  (∃ session, desk.world.debugger.session? id = some session ∧ session.status = .paused) ∧
    ∃ invocation ∈ desk.invocations, invocation.identity.session = id ∧ invocation.stage = .dropped

theorem Idle.abandoned_iff (idle : desk.Idle)
    (present : (desk.play moves).world.debugger.session? id = some session) :
    session.line = .abandoned ↔ (desk.play moves).Deserted id := by
  -- A session of an invocation that was dropped.
  have left : ∀ invocation ∈ (desk.play moves).invocations, invocation.identity.session = id →
      invocation.stage = .dropped → session.Left := by
    rintro invocation member rfl dropped
    obtain ⟨birth, past, kept, ledger⟩ := idle.books member
    have reckoned := ledger.reckoned
    rw [Reckoned, dropped] at reckoned
    rw [kept.identity] at present
    exact reckoned.2 session present
  constructor
  · intro abandoned
    obtain ⟨invocation, member, own⟩ := (idle.play moves).owners id (present ▸ rfl)
    have dropped : invocation.stage = .dropped := by
      by_contra undropped
      obtain ⟨birth, past, kept, ledger⟩ := idle.books member
      rw [← own, kept.identity] at present
      obtain ⟨phase, rapport⟩ := ledger.rapport kept undropped present
      exact rapport.left.1 abandoned
    have paused := (left invocation member own dropped).2.mpr abandoned
    exact ⟨⟨session, present, paused⟩, invocation, member, own, dropped⟩
  · rintro ⟨⟨_, isPresent, paused⟩, invocation, member, own, dropped⟩
    cases present.symm.trans isPresent
    exact (left invocation member own dropped).2.mp paused

end Desk

namespace Debugger

variable {debugger : Debugger} {session : Session} {id : String}

theorem updateSession_self (nodup : debugger.ids.Nodup)
    (present : debugger.session? id = some session) :
    debugger.updateSession id (fun _ => session) = debugger := by
  have same : debugger.sessions.map (fun other => if other.id == id then session else other) =
      debugger.sessions := by
    refine (List.map_congr_left fun other member => ?_).trans (List.map_id _)
    split
    · rename_i isOther
      have isOther : other.id = id := by simpa using isOther
      have found := session?_of_mem nodup member
      rw [isOther, present] at found
      exact Option.some.inj found
    · rfl
  rw [updateSession, same]

/-- A resume that is refused leaves a session alone, unless its line was abandoned. -/
theorem resume_of_refused {overrides : List (String × Value)} {fault : Fault}
    (nodup : debugger.ids.Nodup) (refused : (debugger.resume id overrides).1 = .error fault)
    (manned : ∀ session, debugger.session? id = some session → session.line ≠ .abandoned) :
    (debugger.resume id overrides).2 = debugger := by
  rw [resume] at refused ⊢
  cases present : debugger.session? id with
  | none => rfl
  | some session =>
    simp only [present, Session.resume] at refused ⊢
    cases line : session.line with
    | waiting =>
      rw [line] at refused
      cases refused
    | abandoned => exact absurd line (manned session present)
    | idle | given => exact updateSession_self nodup present

end Debugger

namespace Desk

variable {desk : Desk}

/-- What the debugger says to a command. -/
def answer (desk : Desk) : Move → Except Fault Unit
  | .edit (.set graph node condition) =>
    (desk.world.debugger.setBreakpoint graph node condition).map fun _ => ()
  | .resume session overrides => (desk.world.debugger.resume session overrides).1
  | .stop session => (desk.world.debugger.stop session).map fun _ => ()
  | _ => .ok ()

/-- A command that is refused publishes nothing, and it changes nothing unless it is a resume
of a deserted session. That session no longer counts as paused, and the rest stays. -/
theorem refusal_changes_nothing_unless_deserted (idle : desk.Idle) (moves : List Move)
    {command : Move} {fault : Fault}
    (refused : (desk.play moves).answer command = .error fault) :
    let now := desk.play moves
    now.deeds command = [] ∧
    ((∀ id overrides, command = .resume id overrides → ¬ now.Deserted id) →
      now.make command = now) ∧
    ∀ id overrides, command = .resume id overrides → now.Deserted id →
      ∃ session, now.world.debugger.session? id = some session ∧ session.status = .paused ∧
        now.make command = now.withDebugger (now.world.debugger.updateSession id fun _ =>
          { session with status := .running, node := none, line := .idle }) := by
  intro now
  cases command with
  | resume id overrides =>
    have refused : (now.world.debugger.resume id overrides).1 = .error fault := refused
    refine ⟨?_, fun manned => ?_, ?_⟩
    · rw [deeds, refused]
    · have same := Debugger.resume_of_refused ((idle.play moves).nodup) refused fun session present =>
        mt (idle.abandoned_iff present).mp (manned id overrides rfl)
      rw [make, same]
      rfl
    · rintro _ _ ⟨⟩ deserted
      obtain ⟨session, present, paused⟩ := deserted.1
      refine ⟨session, present, paused, ?_⟩
      simp only [make, Debugger.resume, present, Session.resume,
        (idle.abandoned_iff present).mpr deserted]
  | stop id =>
    cases stopped : now.world.debugger.stop id with
    | ok =>
      rw [answer, stopped] at refused
      cases refused
    | error =>
      refine ⟨?_, fun _ => ?_, fun _ _ isResume => by cases isResume⟩
      · rw [deeds, stopped]
      · rw [make, stopped]
  | edit edit =>
    refine ⟨rfl, fun _ => ?_, fun _ _ isResume => by cases isResume⟩
    cases edit with
    | set graph node condition =>
      cases done : now.world.debugger.setBreakpoint graph node condition with
      | error =>
        rw [make, Debugger.edit, done]
        rfl
      | ok =>
        rw [answer, done] at refused
        cases refused
    | _ => cases refused
  | _ => cases refused

/-- A breakpoint that cannot be set, and a resume of a session that was left behind. -/
theorem refusal_changes_nothing_unless_deserted_entryOnly :
    let now := pausingDesk.play [entryStart, .drop "x"]
    now.make (.edit (.set "g" "n" (some "?"))) = now ∧
    ∃ session, now.world.debugger.session? "s" = some session ∧ session.status = .paused ∧
      now.make (.resume "s" []) = now.withDebugger (now.world.debugger.updateSession "s" fun _ =>
        { session with status := .running, node := none, line := .idle }) := by
  intro now
  have idle : pausingDesk.Idle := vacant_idle _
  have unread : ∃ fault, now.answer (.edit (.set "g" "n" (some "?"))) = .error fault := ⟨_, rfl⟩
  have nobody : now.answer (.resume "s" []) = .error (.debug (.notWaiting "s")) := rfl
  obtain ⟨fault, unread⟩ := unread
  have deserted : now.Deserted "s" := ⟨⟨_, rfl, rfl⟩, _, List.mem_singleton_self _, rfl, rfl⟩
  refine ⟨(refusal_changes_nothing_unless_deserted idle _ unread).2.1 ?_,
    (refusal_changes_nothing_unless_deserted idle _ nobody).2.2 _ _ rfl deserted⟩
  exact fun _ _ isResume => by cases isResume

/-- A resume that is refused makes a paused session show as running. -/
theorem paused_until_refused_entryOnly :
    let now := pausingDesk.play [entryStart, .drop "x"]
    now.answer (.resume "s" []) = .error (.debug (.notWaiting "s")) ∧
    (now.world.debugger.session? "s").map Session.status = some .paused ∧
    ((now.make (.resume "s" [])).world.debugger.session? "s").map Session.status =
      some .running := ⟨rfl, rfl, rfl⟩

end Desk

end Pinflow
