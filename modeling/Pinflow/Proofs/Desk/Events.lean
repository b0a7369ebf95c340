import Pinflow.Proofs.Desk.Invariant

/-!
# Events on record

The channel of the debugger is what the events on record make of it, so what is said about
published events is said about what subscribers can see. An invocation publishes events about
its own session only.
-/

namespace Pinflow

open Debugger Invocation List

variable {invocation : Invocation} {world : Surroundings} {deeds log : List Deed}
  {debugger : Debugger} {session node id : String} {desk : Desk} {event : Event}

def Deed.onChannel : Deed → Channel → Channel
  | .published event, channel => channel.publish event
  | .watched change, channel => change channel
  | _, channel => channel

/-- What the deeds on record make of a channel. -/
def announced (log : List Deed) (channel : Channel) : Channel := log.foldr Deed.onChannel channel

theorem announced_append (later earlier : List Deed) (channel : Channel) :
    announced (later ++ earlier) channel = announced later (announced earlier channel) :=
  foldr_append

theorem announced_of_notes (notes : ∀ deed ∈ deeds, Deed.IsNote deed) (channel : Channel) :
    announced deeds channel = channel := by
  induction deeds with
  | nil => rfl
  | cons deed deeds ih =>
    obtain ⟨isNote, notes⟩ := forall_mem_cons.mp notes
    change Deed.onChannel deed (announced deeds channel) = channel
    rw [ih notes]
    cases deed with
    | published | watched => cases isNote
    | _ => rfl

namespace Invocation

variable {channel : Channel}

theorem channel_of_pausing {snapshot : Value}
    (begun : world.debugger.beginPause session node snapshot = some debugger) :
    debugger.channel = announced (pausing world session node snapshot) world.debugger.channel := by
  obtain ⟨found, present, -, rfl⟩ := world.debugger.beginPause_eq_some begun
  rw [pausing, Debugger.report, present]
  rfl

theorem channel_of_expiry :
    (invocation.expire world session node).2.debugger.channel =
      announced (invocation.expiry world session node) world.debugger.channel := by
  change (world.debugger.expirePause session node).channel = announced _ world.debugger.channel
  simp only [expirePause, expiry, Debugger.report]
  cases world.debugger.session? session <;> cases world.debugger.patience <;> rfl

end Invocation

namespace Desk

/-- The channel is what the deeds on record make of it. -/
theorem lasting_channel (channel : Channel) :
    Lasting fun world log => world.debugger.channel = announced log channel where
  replies known reply := by
    cases reply with
    | impatient begun =>
      rw [channel_of_expiry, channel_of_pausing begun, known, append_assoc, announced_append,
        announced_append]
      rfl
    | _ => exact known
  waits known wait := by
    cases wait with
    | pauses begun =>
      rw [channel_of_pausing begun, known, announced_append]
      rfl
    | _ => exact known
  ends {invocation world} _ result walker _ known := by
    rw [record, announced_append, ← known]
    cases walker.session with
    | none => rfl
    | some session =>
      simp only [closing, closeSession, Debugger.report]
      cases world.debugger.session? session <;> rfl
  prompts known prompted := by
    rw [announced_append, ← known]
    cases prompted with
    | @command _ _ _ _ _ command => cases command <;> rfl
    | expired => exact channel_of_expiry
    | answer => rfl
  notes areNotes known := by
    rw [announced_append, ← known, announced_of_notes areNotes]
  abandons _ known := known
  advances _ known := known
  edits _ known := known
  resumes {desk} _ id overrides known := by
    change (desk.world.debugger.resume id overrides).2.channel = _
    rw [deeds, announced_append, ← known, Debugger.resume, Debugger.report]
    cases desk.world.debugger.session? id with
    | none => rfl
    | some found =>
      simp only [Session.resume]
      cases found.line <;> rfl
  stops _ known := known
  watches change known := congrArg change known

end Desk

/-- The latest news about a session. -/
def lastNews? (session : String) (log : List Deed) : Option News :=
  log.findSome? fun
    | .published event => if event.session = session then some event.news else none
    | _ => none

/-- The news that ends the session of an invocation with this outcome. -/
def Outcome.news (outcome : Outcome) : News :=
  closingNews <|
    match outcome.fault with
    | none => .ok ()
    | some fault => .error fault

theorem Invocation.news_outcome {now : Instant} {result : Except Fault Unit} {walker : Walker} :
    (invocation.outcome now result walker).news = closingNews result := by
  cases result <;> rfl

end Pinflow
