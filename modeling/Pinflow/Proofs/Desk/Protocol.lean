import Mathlib.Data.List.Induction
import Pinflow.Proofs.Desk.Ledgers
import Pinflow.Proofs.Desk.Stopping
import Pinflow.Proofs.Walk.Once

/-!
# The protocol of a session

In which order the events of one session come, however the moves at a desk interleave: a
pause, then resumes and pauses by turns, and at last the one event that closes the session. An
invocation that is stopped while it is paused, or whose pause lasts too long, closes its
session without a resume. With nodes of built-in kinds it can only end as stopped then; a node
of another kind may recover and go on.
-/

namespace Pinflow

open List

open Walk (Past Halted Heeded)

variable {outcome : Outcome} {birth : Birth}

inductive Rounds : List News → Prop
  | first (invocation node : String) (snapshot : Value) : Rounds [.paused invocation node snapshot]
  | again {word : List News} (before : Rounds word) (invocation node : String)
      (snapshot : Value) : Rounds (word ++ [.resumed, .paused invocation node snapshot])

def News.IsClosing : News → Prop
  | .completed | .stopped | .error _ => True
  | .paused _ _ _ | .resumed => False

/-- A session that is not closed: it is paused, has been resumed, or its pause has lasted too
long. -/
inductive Unclosed : List News → Prop
  | held {word : List News} (rounds : Rounds word) : Unclosed word
  | going {word : List News} (rounds : Rounds word) : Unclosed (word ++ [.resumed])
  | expired {word : List News} (rounds : Rounds word) (message : String) :
      Unclosed (word ++ [.error message])

inductive Whole (closes : News → Prop) : List News → Prop
  | resumed {word : List News} {last : News} (rounds : Rounds word) (closing : last.IsClosing) :
      Whole closes (word ++ [.resumed, last])
  | stopped {word : List News} {last : News} (rounds : Rounds word) (closing : closes last) :
      Whole closes (word ++ [last])
  | expired {word : List News} {last : News} (rounds : Rounds word) (message : String)
      (closing : closes last) : Whole closes (word ++ [.error message, last])

theorem Rounds.eq_cons {word : List News} (rounds : Rounds word) :
    ∃ invocation node snapshot tail, word = .paused invocation node snapshot :: tail ∧
      (tail = [] ∨ ∃ rest, tail = .resumed :: rest) := by
  induction rounds with
  | first invocation node snapshot => exact ⟨invocation, node, snapshot, [], rfl, .inl rfl⟩
  | again before _ _ _ ih =>
    obtain ⟨invocation, node, snapshot, tail, rfl, rest⟩ := ih
    refine ⟨invocation, node, snapshot, _, rfl, .inr ?_⟩
    rcases rest with rfl | ⟨rest, rfl⟩
    · exact ⟨_, rfl⟩
    · exact ⟨_, rfl⟩

/-- If sessions that are not resumed close as stopped, none completes after its first pause. -/
theorem Whole.not_completed_second {word : List News} {first : News}
    (whole : Whole (· = .stopped) word) : ¬ [first, .completed] <+: word := by
  rintro ⟨rest, starts⟩
  cases whole with
  | resumed rounds | expired rounds =>
    obtain ⟨_, _, _, _, rfl, rfl | ⟨_, rfl⟩⟩ := rounds.eq_cons <;> cases starts
  | stopped rounds closing =>
    subst closing
    obtain ⟨_, _, _, _, rfl, rfl | ⟨_, rfl⟩⟩ := rounds.eq_cons <;> cases starts

theorem Debugger.isClosing_closingNews (result : Except Fault Unit) :
    (closingNews result).IsClosing := by
  cases result with
  | ok => trivial
  | error fault => cases fault <;> trivial

namespace Told

variable {closes : News → Prop} {phase : Phase} {tale : List News}

/-- The words that a session tells up to each phase. -/
theorem word (told : Told closes phase tale) :
    match phase with
    | .fresh => tale.reverse = []
    | .held => Rounds tale.reverse
    | .going => ∃ word, Rounds word ∧ tale.reverse = word ++ [.resumed]
    | .expired => ∃ word message, Rounds word ∧ tale.reverse = word ++ [.error message]
    | .closed => Whole closes tale.reverse := by
  induction told with
  | fresh => rfl
  | @paused phase tale invocation node snapshot before goes ih =>
    simp only [reverse_cons]
    rcases goes with rfl | rfl
    · rw [ih]
      exact .first invocation node snapshot
    · obtain ⟨word, rounds, same⟩ := ih
      rw [same, append_assoc]
      exact rounds.again invocation node snapshot
  | resumed before ih => exact ⟨_, ih, reverse_cons⟩
  | @expired tale message before ih => exact ⟨_, message, ih, reverse_cons⟩
  | @closed phase tale result before isOver ih =>
    simp only [reverse_cons]
    rcases isOver with rfl | ⟨rfl | rfl, allowed⟩
    · obtain ⟨word, rounds, same⟩ := ih
      rw [same, append_assoc]
      exact .resumed rounds (Debugger.isClosing_closingNews result)
    · exact .stopped ih allowed
    · obtain ⟨word, message, rounds, same⟩ := ih
      rw [same, append_assoc]
      exact .expired rounds message allowed

theorem unclosed (told : Told closes phase tale) (begun : phase ≠ .fresh)
    (open_ : phase ≠ .closed) : Unclosed tale.reverse := by
  have word := told.word
  cases phase with
  | fresh => exact absurd rfl begun
  | held => exact .held word
  | going =>
    obtain ⟨word, rounds, same⟩ := word
    exact same ▸ .going rounds
  | expired =>
    obtain ⟨word, message, rounds, same⟩ := word
    exact same ▸ .expired rounds message
  | closed => exact absurd rfl open_

/-- Whatever has been told is the beginning of a session that can come to its end. -/
theorem prefix_whole (told : Told closes phase tale) (stops : closes .stopped) :
    ∃ word, Whole closes word ∧ tale.reverse <+: word := by
  have word := told.word
  cases phase with
  | fresh =>
    refine ⟨_, .stopped (.first "" "" .null) stops, ?_⟩
    rw [word]
    exact nil_prefix
  | held => exact ⟨_, .stopped word stops, prefix_append _ _⟩
  | going =>
    obtain ⟨word, rounds, same⟩ := word
    refine ⟨_, .resumed rounds (show News.IsClosing .stopped from trivial), [.stopped], ?_⟩
    rw [same, append_assoc]
    rfl
  | expired =>
    obtain ⟨word, message, rounds, same⟩ := word
    refine ⟨_, .expired rounds message stops, [.stopped], ?_⟩
    rw [same, append_assoc]
    rfl
  | closed => exact ⟨_, word, prefix_rfl⟩

end Told

/-- How a session may close that was not resumed after its last pause. -/
def Circuit.Closes (circuit : Circuit) (news : News) : Prop :=
  news.IsClosing ∧
    ∀ graph, Circuit.load Registry.builtin graph = .ok circuit → news = .stopped

theorem Circuit.closes_stopped (circuit : Circuit) : circuit.Closes .stopped :=
  ⟨trivial, fun _ _ => rfl⟩

theorem Walk.halted_of_stop {past : Past} (stop : .stop ∈ Walk.commands past) : Halted past := by
  induction past with
  | nil => cases stop
  | cons exchange past ih =>
    obtain ⟨q, answer⟩ := exchange
    rw [Walk.halted_cons]
    cases q with
    | pause =>
      rcases mem_cons.mp stop with same | stop
      · exact .inl same.symm
      · exact .inr (ih stop)
    | _ => exact .inr (ih stop)

/-- A walk that was told to stop closes its session as its circuit allows. -/
theorem Birth.closes_of_stop {news : News} (closes : birth.Closes news) :
    birth.circuit.Closes news := by
  obtain ⟨past, result, walker, leads, stop, rfl⟩ := closes
  refine ⟨Debugger.isClosing_closingNews result, fun graph loaded => ?_⟩
  have heeded : Heeded result past :=
    (birth.walk_heeds (Circuit.wired_of_load loaded)).onward leads
  obtain ⟨session, rfl⟩ := heeded.stopped.mpr (Walk.halted_of_stop stop)
  rfl

theorem Outcome.news_of_failed (failed : outcome.status = .failed) :
    ∃ fault, outcome.fault = some fault ∧ outcome.news = .error fault.message := by
  obtain ⟨fault, _, _, _, _⟩ := outcome
  cases fault with
  | none => cases failed
  | some fault =>
    refine ⟨fault, rfl, ?_⟩
    cases fault with
    | stopped => cases failed
    | _ => rfl

/-- The news of an invocation have come to some phase. -/
theorem Ledger.told {world : Surroundings} {log : List Deed} {invocation : Invocation}
    (ledger : Ledger birth world log invocation) :
    ∃ phase, Told birth.Closes phase (newsOf birth.session log) := by
  have reckoned := ledger.reckoned
  rw [Reckoned] at reckoned
  cases stage : invocation.stage with
  | paused =>
    simp only [stage] at reckoned
    exact reckoned.told
  | waiting =>
    simp only [stage] at reckoned
    exact reckoned.1.told
  | finished =>
    simp only [stage] at reckoned
    split at reckoned
    · obtain ⟨_, _, _, _, _, _, closed⟩ := reckoned
      exact ⟨.closed, closed⟩
    · rw [reckoned]
      exact ⟨.fresh, .fresh⟩
  | refused =>
    simp only [stage] at reckoned
    rw [reckoned]
    exact ⟨.fresh, .fresh⟩
  | dropped =>
    simp only [stage] at reckoned
    exact reckoned.1

namespace Desk

variable {desk : Desk} {name : String} {invocation : Invocation} {identity : Identity}
  {circuit : Circuit} {request : Request}

/-- Nothing is published any more for an invocation that has finished. -/
theorem Idle.eventsOf_of_finished (idle : desk.Idle) {moves : List Move}
    (started : .started name identity circuit request ∈ desk.chronicle moves)
    (found : (desk.play moves).invocation? name = some invocation)
    (finished : invocation.stage = .finished outcome) (more : List Move) :
    eventsOf identity.session (desk.chronicle (moves ++ more)) =
      eventsOf identity.session (desk.chronicle moves) := by
  induction more using reverseRecOn with
  | nil => rw [append_nil]
  | append_singleton more move ih =>
    have ended : ¬ invocation.Live := by
      rw [Invocation.Live, finished]
      exact id
    obtain ⟨after, isAfter, same⟩ := stage_of_not_live found ended more
    rw [← play_append] at isAfter
    obtain ⟨_, past, isFound, kept⟩ :=
      idle.kept_of_started (mem_chronicle_append started more)
    cases isAfter.symm.trans isFound
    have own : after.identity.session = identity.session :=
      congrArg Identity.session kept.identity
    obtain ⟨standing, rest, follows, stands, seated⟩ := kept
    rw [Seated, same, finished] at seated
    rw [← append_assoc, chronicle_append, chronicle_singleton, eventsOf_append, ih]
    refine (congrArg (· ++ _) ?_).trans (nil_append _)
    by_cases turn : move = .wake name
    · rw [turn]
      simp only [deeds, isAfter]
      rw [Invocation.turn, same, finished]
      rfl
    · rw [← own]
      refine (idle.play _).eventsOf_beside isAfter turn fun session present => ?_
      cases seated.symm.trans present

/-- The protocol of a session. Its events carry the id of the circuit, and their news begin a
whole session. An invocation that has finished has closed the session it had with one event,
which agrees with its outcome, and nothing is published for the session afterwards. -/
theorem events_follow_protocol (idle : desk.Idle) (moves : List Move)
    (started : .started name identity circuit request ∈ desk.chronicle moves) :
    let events := (eventsOf identity.session (desk.chronicle moves)).reverse
    let news := events.map Event.news
    (∀ event ∈ events, event.graph = circuit.id) ∧
    (∃ word, Whole circuit.Closes word ∧ news <+: word) ∧
    ∀ invocation outcome, (desk.play moves).invocation? name = some invocation →
      invocation.stage = .finished outcome →
      (if invocation.session.isSome then
        Whole circuit.Closes news ∧ ∃ before, Unclosed before ∧ news = before ++ [outcome.news]
      else news = []) ∧
      ((outcome.news = .completed ↔ outcome.status = .completed) ∧
        (outcome.news = .stopped ↔ outcome.status = .stopped) ∧
        (outcome.status = .failed →
          ∃ fault, outcome.fault = some fault ∧ outcome.news = .error fault.message)) ∧
      ∀ more, eventsOf identity.session (desk.chronicle (moves ++ more)) =
        eventsOf identity.session (desk.chronicle moves) := by
  intro events news
  obtain ⟨invocation, past, found, kept⟩ := idle.kept_of_started started
  let birth : Birth := ⟨desk.settings, name, identity, circuit, request⟩
  have ledger : Ledger birth (desk.play moves).world (desk.chronicle moves) invocation :=
    (idle.booked moves).ledgers birth invocation (settings_play desk moves).symm started found
  have tells : news = (newsOf birth.session (desk.chronicle moves)).reverse := map_reverse
  have allows : ∀ news, birth.Closes news → circuit.Closes news :=
    fun _ closes => Birth.closes_of_stop closes
  refine ⟨fun event member => ?_, ?_, ?_⟩
  · exact ledger.attuned event (mem_reverse.mp member)
  · obtain ⟨phase, told⟩ := ledger.told
    rw [tells]
    exact (told.mono allows).prefix_whole circuit.closes_stopped
  · intro latest outcome isFound finished
    cases found.symm.trans isFound
    refine ⟨?_, ⟨Outcome.news_status.2, Outcome.news_status.1, Outcome.news_of_failed⟩,
      idle.eventsOf_of_finished started found finished⟩
    have reckoned := ledger.reckoned
    rw [Reckoned] at reckoned
    simp only [finished] at reckoned
    simp only [tells]
    split
    · rename_i isOpen
      rw [if_pos isOpen] at reckoned
      obtain ⟨older, phase, split, told, begun, open_, closed⟩ := reckoned
      refine ⟨(closed.mono allows).word, older.reverse, told.unclosed begun open_, ?_⟩
      rw [split, reverse_cons]
    · rename_i isClosed
      rw [if_neg isClosed] at reckoned
      rw [reckoned]
      rfl

/-- Stopped while it is paused before its only node, and woken up. -/
def stoppedPlay : List Move := [entryStart, .stop "s", .wake "x"]

/-- The session closes without a resume. -/
theorem events_follow_protocol_entryOnly :
    let news := ((eventsOf "s" (pausingDesk.chronicle stoppedPlay)).reverse).map Event.news
    news.map News.name = ["paused", "stopped"] ∧ Whole (Circuit.ofGraph entryOnly).Closes news ∧
      ∃ before, Unclosed before ∧ news = before ++ [.stopped] := by
  intro news
  have idle : pausingDesk.Idle := vacant_idle _
  have started : .started "x" ⟨"i", "s", "t"⟩ (.ofGraph entryOnly) { entry := "start" } ∈
      pausingDesk.chronicle stoppedPlay :=
    mem_append_right _ (started_mem rfl)
  have found : ∃ invocation outcome,
      (pausingDesk.play stoppedPlay).invocation? "x" = some invocation ∧
      invocation.stage = .finished outcome ∧ invocation.session.isSome = true ∧
      outcome.news = .stopped := ⟨_, _, rfl, rfl, rfl, rfl⟩
  obtain ⟨invocation, outcome, found, finished, isOpen, stopped⟩ := found
  obtain ⟨-, -, closes⟩ := events_follow_protocol idle stoppedPlay started
  obtain ⟨whole, -⟩ := closes invocation outcome found finished
  rw [if_pos isOpen, stopped] at whole
  exact ⟨rfl, whole⟩

/-- A node that lets another node run, and goes on whatever comes of it. -/
def recoveringRun : Graph where
  id := "g"
  nodes := [
    { id := "start"
      kind := "probe"
      config := [
        ("do", .arr [.arr [.str "try", .arr [.str "run", .str "b"]]]), ("flow", .str "end")] },
    { id := "b", kind := "on_event" }]
  edges := []

/-- It is stopped while it is paused before the other node. -/
def recoveringPlay : List Move := [
  .start "x" ⟨"i", "s", "t"⟩ (Walk.scriptedCircuit recoveringRun) { entry := "start" },
  .stop "s", .wake "x"]

/-- The invocation completes, and its session closes with that right after the pause. -/
theorem completed_without_resume_of_recoveringRun :
    let desk := Desk.vacant [⟨"g", "b", true, none, 0⟩]
    let news := (newsOf "s" (desk.chronicle recoveringPlay)).reverse
    desk.Idle ∧
    Circuit.load Registry.scripted recoveringRun = .ok (Walk.scriptedCircuit recoveringRun) ∧
    (desk.play recoveringPlay).status? "x" = some .completed ∧
    news.map News.name = ["paused", "completed"] ∧
    ¬ ∃ word, Whole (· = .stopped) word ∧ news <+: word := by
  intro desk news
  have names : news.map News.name = ["paused", "completed"] := by decide +kernel
  refine ⟨vacant_idle _, rfl, by decide +kernel, names, ?_⟩
  rintro ⟨word, whole, starts⟩
  obtain ⟨first, rest, same, -, tail⟩ := map_eq_cons_iff.mp names
  obtain ⟨second, none, rfl, isCompleted, nothing⟩ := map_eq_cons_iff.mp tail
  rw [same, map_eq_nil_iff.mp nothing] at starts
  have completed : second = .completed := by
    cases second with
    | completed => rfl
    | _ => simp [News.name] at isCompleted
  exact whole.not_completed_second (completed ▸ starts)

end Desk

end Pinflow
