import Pinflow.Proofs.Circuit.Wired
import Pinflow.Proofs.Desk.Invariant

/-!
# Cancellation is final

From the moment its token is cancelled an invocation begins nothing: no evaluator, no
executor and no pause, whatever its nodes are and however the moves at the desk
interleave. What it still asks is the remainder of executors that are running, the way of
control to a node that it will not enter, and the overrides of a resume that ends a pause.
-/

namespace Pinflow

open Desk Invocation List

variable {name session node : String} {world : Surroundings} {desk : Desk} {invocation : Invocation}
  {deed : Deed} {log deeds : List Deed}

def Deed.IsPause : Deed → Prop
  | .published ⟨_, _, .paused _ _ _⟩ => True
  | _ => False

/-- A deed with which nobody asks anything and nobody pauses. -/
def Deed.Still (deed : Deed) : Prop := (∀ name q, deed ≠ .asked name q) ∧ ¬ deed.IsPause

def PausesAsked (log : List Deed) : Prop :=
  ∀ later earlier session graph invocation node snapshot,
    log = later ++ .published ⟨session, graph, .paused invocation node snapshot⟩ :: earlier →
    ∃ name before, earlier = .asked name (.pause session node snapshot) :: before

namespace PausesAsked

theorem append (known : PausesAsked log) (none : ∀ deed ∈ deeds, ¬ deed.IsPause) :
    PausesAsked (deeds ++ log) := by
  intro later earlier session graph invocation node snapshot split
  rcases append_eq_append_iff.mp split with ⟨between, rfl, same⟩ | ⟨between, same, tail⟩
  · exact known between earlier session graph invocation node snapshot same
  · cases between with
    | nil => exact known [] earlier session graph invocation node snapshot tail.symm
    | cons =>
      cases (cons.inj tail).1
      have member : _ ∈ deeds := same ▸ mem_append_cons_self
      exact absurd trivial (none _ member)

theorem asked (known : PausesAsked log) (name : String) (q : Query) :
    PausesAsked (.asked name q :: log) := by
  show PausesAsked ([.asked name q] ++ log)
  exact known.append (forall_mem_singleton.mpr id)

theorem pausing (known : PausesAsked log) {snapshot : Value} :
    PausesAsked (Invocation.pausing world session node snapshot ++
      .asked name (.pause session node snapshot) :: log) := by
  have known := known.asked name (.pause session node snapshot)
  rw [Invocation.pausing, Debugger.report]
  cases world.debugger.session? session with
  | none => exact known
  | some =>
    intro later earlier session' graph invocation node' snapshot' split
    cases later with
    | nil =>
      cases split
      exact ⟨name, log, rfl⟩
    | cons deed later => exact known later _ _ _ _ _ _ (cons.inj split).2

end PausesAsked

theorem not_isPause_of_report {debugger : Debugger} {id : String} {news : Session → News}
    (member : deed ∈ debugger.report id news)
    (other : ∀ session invocation node snapshot, news session ≠ .paused invocation node snapshot) :
    ¬ deed.IsPause := by
  rw [Debugger.report] at member
  split at member
  · rename_i session found
    rw [mem_singleton.mp member]
    intro isPause
    cases same : news session with
    | paused invocation node snapshot => exact other session invocation node snapshot same
    | _ =>
      rw [same] at isPause
      exact isPause
  · cases member

theorem Debugger.closingNews_ne_paused (result : Except Fault Unit) (invocation node : String)
    (snapshot : Value) : closingNews result ≠ .paused invocation node snapshot := by
  cases result with
  | ok => exact nofun
  | error fault => cases fault <;> exact nofun

namespace Invocation

variable {after : Invocation} {world' : Surroundings} {rest : Run}
theorem not_isPause_of_expiry (member : deed ∈ invocation.expiry world session node) :
    ¬ deed.IsPause := by
  rcases mem_cons.mp member with rfl | member
  · exact id
  · rcases mem_cons.mp member with rfl | member
    · exact id
    · split at member
      · exact not_isPause_of_report member (by simp)
      · cases member

theorem not_isPause_of_done {result : Except Fault Unit} {walker : Walker}
    (member : deed ∈ invocation.record world (Dialogue.done (result, walker))) :
    ¬ deed.IsPause := by
  rw [record] at member
  split at member
  · exact not_isPause_of_report member fun _ => Debugger.closingNews_ne_paused result
  · cases member

theorem Prompted.not_isPause (prompted : Prompted invocation world after world' rest deeds) :
    ∀ deed ∈ deeds, ¬ deed.IsPause := by
  cases prompted with
  | @command _ _ _ _ _ command => cases command <;> simp [obedience, Deed.IsPause]
  | expired => exact fun _ => not_isPause_of_expiry
  | answer => exact forall_mem_singleton.mpr id

end Invocation

/-- With most moves nobody asks anything. -/
theorem Desk.still_of_deeds {move : Move}
    (starts : ∀ name identity circuit request, move ≠ .start name identity circuit request)
    (wakes : ∀ name, move ≠ .wake name) (member : deed ∈ desk.deeds move) : deed.Still := by
  obtain ⟨_, _, _, _, same, -⟩ | ⟨_, _, same, -⟩ | ⟨_, _, -, reported⟩ | ⟨_, rfl⟩ | ⟨_, rfl⟩ :=
    mem_deeds_cases member
  · exact absurd same (starts _ _ _ _)
  · exact absurd same (wakes _)
  · refine ⟨?_, not_isPause_of_report reported (by simp)⟩
    rintro name q rfl
    cases name?_of_report reported
  · exact ⟨by simp, id⟩
  · exact ⟨by simp, id⟩

namespace PausesAsked

theorem lasting : Lasting fun _ => PausesAsked where
  replies known reply := by
    cases reply with
    | refused => exact (known.asked _ _).append (forall_mem_singleton.mpr id)
    | impatient =>
      rw [append_assoc]
      exact known.pausing.append fun _ => not_isPause_of_expiry
    | _ => exact known.asked _ _
  waits known wait := by
    cases wait with
    | pauses => exact known.pausing
    | _ => exact known.asked _ _
  ends _ _ _ known := known.append fun _ => not_isPause_of_done
  prompts known prompted := known.append prompted.not_isPause
  notes areNotes known := known.append fun deed member isPause => by
    cases deed with
    | published => exact areNotes _ member
    | _ => exact isPause
  abandons _ known := known
  advances _ known := known
  edits _ known := known
  resumes _ _ known :=
    known.append fun _ member => (still_of_deeds (by simp) (by simp) member).2
  stops _ known := known
  watches _ known := by
    rw [← singleton_append]
    exact known.append (forall_mem_singleton.mpr id)

theorem play (desk : Desk) (moves : List Move) : PausesAsked (desk.chronicle moves) := by
  refine lasting.play ?_ moves
  intro later earlier session graph invocation node snapshot split
  cases later <;> cases split

end PausesAsked

/-- A pause in the session of an invocation was asked for right before, by that invocation. -/
theorem Desk.Idle.asked_of_paused (idle : desk.Idle) {moves : List Move}
    {later earlier : List Deed} {about paused : String} {snapshot : Value}
    (found : (desk.play moves).invocation? name = some invocation)
    (record : desk.chronicle moves = later ++
      .published ⟨invocation.identity.session, about, .paused paused node snapshot⟩ :: earlier) :
    ∃ before, earlier = .asked name (.pause invocation.identity.session node snapshot) :: before := by
  have sound := idle.play moves
  obtain ⟨asker, before, rfl⟩ := PausesAsked.play desk moves _ _ _ _ _ _ _ record
  rw [append_cons] at record
  obtain ⟨other, member, birth, past, next, rfl, same, course, careful⟩ := sound.asked record
  obtain ⟨isMember, named⟩ := mem_of_invocation? found
  have own : invocation.identity.session = birth.session :=
    course.session_of_opened (careful.pauses _ node snapshot rfl)
  have alike : other = invocation := by
    refine sound.sessions other member invocation isMember ?_
    rw [same]
    exact own.symm
  rw [alike, named]
  exact ⟨before, rfl⟩

/-- What an invocation asks after the cancellation of its token begins nothing. -/
theorem Desk.Sound.remains {later earlier : List Deed} {q : Query} (sound : desk.Sound log)
    (record : log = later ++ .asked name q :: earlier) (cancelled : .cancelled name ∈ earlier) :
    ¬ Walk.Begins q ∧ Walk.Remains (askedBy name earlier) q := by
  obtain ⟨_, _, birth, past, next, _, _, course, careful⟩ := sound.asked record
  have begins : ¬ Walk.Begins q := fun begins =>
    course.not_cancelled_of_cleared id (careful.begins begins) cancelled
  refine ⟨begins, ?_⟩
  rw [course.askedBy_eq]
  exact careful.remains.resolve_left begins

/-- From the cancellation of its token on, an invocation begins no evaluator, no executor and
no pause, and publishes no pause. Every question it still puts remains from before: it
belongs to an executor that has not returned, takes control along a pin, or writes an
override of the pause that has just ended. -/
theorem nothing_begins_once_cancelled {desk : Desk} (idle : desk.Idle) (moves : List Move)
    {name : String} {later earlier : List Deed}
    (cancelled : desk.chronicle moves = later ++ .cancelled name :: earlier) :
    (∀ after q between, later = after ++ .asked name q :: between →
      ¬ Walk.Begins q ∧ Walk.Remains (askedBy name (between ++ .cancelled name :: earlier)) q) ∧
    ∀ invocation event, (desk.play moves).invocation? name = some invocation →
      .published event ∈ later → event.session = invocation.identity.session →
      ∀ paused node snapshot, event.news ≠ .paused paused node snapshot := by
  have sound := idle.play moves
  have asks : ∀ after q between, later = after ++ .asked name q :: between →
      ¬ Walk.Begins q ∧
        Walk.Remains (askedBy name (between ++ .cancelled name :: earlier)) q := by
    intro after q between split
    have record : desk.chronicle moves =
        after ++ .asked name q :: (between ++ .cancelled name :: earlier) := by
      rw [cancelled, split, append_assoc, cons_append]
    exact sound.remains record (mem_append_right _ mem_cons_self)
  refine ⟨asks, ?_⟩
  intro invocation event found published own paused node snapshot isPause
  obtain ⟨session, graph, news⟩ := event
  cases isPause
  obtain rfl : session = invocation.identity.session := own
  obtain ⟨after, between, split⟩ := append_of_mem published
  have record : desk.chronicle moves = after ++
      .published ⟨invocation.identity.session, graph, .paused paused node snapshot⟩ ::
        (between ++ .cancelled name :: earlier) := by
    rw [cancelled, split, append_assoc, cons_append]
  obtain ⟨before, asked⟩ := idle.asked_of_paused found record
  cases between with
  | nil => cases asked
  | cons deed between =>
    cases (cons.inj asked).1
    refine (asks (after ++ [.published
      ⟨invocation.identity.session, graph, .paused paused node snapshot⟩])
      (.pause invocation.identity.session node snapshot) between ?_).1 trivial
    rw [split, append_assoc]
    rfl

/-- A desk on which nothing has been started. -/
def Desk.vacant (breakpoints : Breakpoints) : Desk where
  world := { debugger := { channel := .ofCapacity 4, breakpoints }, now := ⟨0, 0, 0⟩ }

theorem Desk.vacant_idle (breakpoints : Breakpoints) : (vacant breakpoints).Idle := ⟨rfl, rfl⟩

/-- The record of a play in which the host cancels a token. -/
theorem Desk.chronicle_cancel (desk : Desk) (before after : List Move)
    (found : ((desk.play before).invocation? name).isSome = true) :
    desk.chronicle (before ++ .cancel name :: after) =
      (desk.play (before ++ [.cancel name])).chronicle after ++
        .cancelled name :: desk.chronicle before := by
  obtain ⟨invocation, present⟩ := Option.isSome_iff_exists.mp found
  simp only [chronicle_append, chronicle, deeds, present, append_assoc,
    singleton_append, play_append, play_cons, play_nil]

def twoActions : Graph where
  id := "two"
  nodes := [
    { id := "start", kind := "on_event" },
    { id := "first", kind := "agent_action", config := [("action", .str "wait")] },
    { id := "second", kind := "agent_action", config := [("action", .str "wait")] }]
  edges := [
    ⟨⟨"start", "then"⟩, ⟨"first", "exec"⟩⟩, ⟨⟨"first", "success"⟩, ⟨"second", "exec"⟩⟩]

/-- The token is cancelled while the first action waits, with a breakpoint at the second:
the answer of the first is still stored, and the second is not entered. -/
theorem nothing_begins_once_cancelled_twoActions :
    let desk : Desk := .vacant [⟨"two", "second", true, none, 0⟩]
    let before : List Move :=
      [.start "x" ⟨"i", "s", "t"⟩ (.ofGraph twoActions) { entry := "start", capability := .gate }]
    let after : List Move := [.release "x" (.ok .null), .wake "x"]
    let later := (desk.play (before ++ [.cancel "x"])).chronicle after
    desk.Idle ∧
    desk.chronicle (before ++ .cancel "x" :: after) =
      later ++ .cancelled "x" :: desk.chronicle before ∧
    later.length = 8 ∧
    ∀ later' q between, later = later' ++ .asked "x" q :: between →
      ¬ Walk.Begins q ∧
        Walk.Remains (askedBy "x" (between ++ .cancelled "x" :: desk.chronicle before)) q := by
  intro desk before after later
  have idle : desk.Idle := vacant_idle _
  have cancelled : desk.chronicle (before ++ .cancel "x" :: after) =
      later ++ .cancelled "x" :: desk.chronicle before :=
    desk.chronicle_cancel before after (by decide +kernel)
  refine ⟨idle, cancelled, by decide +kernel, ?_⟩
  exact (nothing_begins_once_cancelled idle _ cancelled).1

/-- A node that begins and does nothing else. -/
def entryOnly : Graph where
  id := "entry"
  nodes := [{ id := "start", kind := "on_event" }]
  edges := []

/-- It is to pause there. -/
def pausingDesk : Desk := .vacant [⟨"entry", "start", true, none, 0⟩]

def entryStart : Move :=
  .start "x" ⟨"i", "s", "t"⟩ (.ofGraph entryOnly) { entry := "start" }

def overridden : List Deed :=
  (pausingDesk.play [entryStart, .cancel "x"]).chronicle
    [.resume "s" [("seen", .bool true)], .wake "x"]

/-- The override is still written, although no executor is running. -/
theorem override_written_once_cancelled :
    pausingDesk.chronicle
        [entryStart, .cancel "x", .resume "s" [("seen", .bool true)], .wake "x"] =
      overridden ++ .cancelled "x" :: pausingDesk.chronicle [entryStart] ∧
    ∃ later walker between,
      overridden =
        later ++ .asked "x" (.announce ⟨.assigned "seen" (.bool true), walker⟩) :: between ∧
      Walk.running (askedBy "x" (between ++ .cancelled "x" :: pausingDesk.chronicle [entryStart])) =
        0 := by
  constructor
  · exact pausingDesk.chronicle_cancel [entryStart] _ (by decide +kernel)
  · exact ⟨overridden.take 2, _, overridden.drop 3, rfl, rfl⟩

end Pinflow
