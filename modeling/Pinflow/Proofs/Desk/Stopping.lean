import Pinflow.Proofs.Desk.Cancellation
import Pinflow.Proofs.Desk.Ledgers
import Pinflow.Proofs.Walk.Halting

/-!
# Stopping an invocation

A stop that the debugger accepts cancels the token of the invocation. An invocation that is
paused then ends as stopped when it gets its turn. One that waits for the host ends as
stopped exactly if its walk comes to look at the token once more; if the action was the
last thing it had to do, the stop is lost.
-/

namespace Pinflow

open Circuit Invocation List

open Walk (Past Halted Unchecked Heeded Heeding questions)

variable {outcome : Outcome} {log : List Deed} {invocation : Invocation} {past : Past}
  {name : String}

theorem Outcome.status_eq_stopped :
    outcome.status = .stopped ↔ ∃ session, outcome.fault = some (.stopped session) := by
  obtain ⟨fault, _, _, _, _⟩ := outcome
  cases fault with
  | none => simp [status]
  | some fault => cases fault <;> simp [status]

theorem Outcome.news_status : (outcome.news = .stopped ↔ outcome.status = .stopped) ∧
    (outcome.news = .completed ↔ outcome.status = .completed) := by
  obtain ⟨fault, _, _, _, _⟩ := outcome
  cases fault with
  | none => simp [status, news, Debugger.closingNews]
  | some fault => cases fault <;> simp [status, news, Debugger.closingNews]

section walk

variable {birth : Birth} {standing : Standing} {rest : Run} {world : Surroundings}

section

variable (wired : Wired Registry.builtin birth.circuit)
include wired

theorem Birth.walk_heeds :
    Dialogue.WP Heeding (fun result past => Heeded result.1 past) birth.walk [] :=
  Walk.start_heeds wired _ _ _

theorem Follows.heeds (follows : Follows birth log invocation standing past rest) :
    Dialogue.WP Heeding (fun result past => Heeded result.1 past) rest past := by
  exact (birth.walk_heeds wired).onward follows.course.leads

/-- The invocation ended as stopped exactly if its walk was told to end. -/
theorem Kept.status_eq_stopped (kept : Kept birth world log invocation past)
    (finished : invocation.stage = .finished outcome) :
    outcome.status = .stopped ↔ Halted past := by
  obtain ⟨standing, rest, follows, stands, -⟩ := kept
  rw [finished] at stands
  cases stands with
  | finished fault =>
    have heeded : Heeded _ past := follows.heeds wired
    rw [Outcome.status_eq_stopped, ← heeded.stopped]
    exact exists_congr fun session => fault (.stopped session)

/-- An invocation that is driven after its walk was told to end, or resumed with a cancelled
token, ends as stopped. -/
theorem Follows.ends_stopped (follows : Follows birth log invocation .busy past rest)
    (told : Halted past ∨ Unchecked past ∧ .cancelled birth.name ∈ log) :
    ∃ outcome, (invocation.drive world rest).1.stage = .finished outcome ∧
      outcome.status = .stopped := by
  refine drive_rule
    (fun going _ run log => ∃ past, Follows birth log going .busy past run ∧
      (Halted past ∨ Unchecked past ∧ .cancelled birth.name ∈ log))
    (fun left _ _ => ∃ outcome, left.stage = .finished outcome ∧ outcome.status = .stopped)
    ?_ ?_ ?_ ⟨past, follows, told⟩
  · rintro going world q next log answer after world' deeds ⟨past, follows, told⟩ reply
    refine ⟨⟨q, answer⟩ :: past, follows.reply reply, ?_⟩
    have heeding : Heeding q past := (follows.heeds wired).1
    rcases told with halted | ⟨unchecked, cancelled⟩
    · exact .inl (Walk.halted_cons.mpr (.inr halted))
    · rcases heeding.unchecked unchecked with rfl | ⟨path, value, walker, rfl⟩
      · cases reply with
        | token => exact .inl (Walk.halted_cons.mpr (.inl (follows.token.mpr cancelled)))
      · exact .inr ⟨unchecked, mem_append_right _ (mem_cons_of_mem _ cancelled)⟩
  · rintro going world q next log after world' deeds ⟨past, follows, told⟩ wait
    have heeding : Heeding q past := (follows.heeds wired).1
    -- It neither pauses nor acts any more.
    have goes : ¬ q.MayWait := by
      rcases told with halted | ⟨unchecked, -⟩
      · obtain ⟨moment, rfl⟩ := heeding.halted halted
        exact id
      · rcases heeding.unchecked unchecked with rfl | ⟨path, value, walker, rfl⟩ <;> exact id
    exact absurd wait.mayWait goes
  · rintro going world result walker log ⟨past, follows, told⟩
    obtain ⟨archive, finished⟩ := going.finish_eq world result walker
    have heeded : Heeded result past := follows.heeds wired
    refine ⟨_, rfl, Outcome.status_eq_stopped.mpr ?_⟩
    rcases told with halted | ⟨unchecked, -⟩
    · obtain ⟨session, stopped⟩ := heeded.stopped.mpr halted
      exact ⟨session, outcome_fault_eq_some.mpr stopped⟩
    · exact absurd unchecked heeded.unchecked

end

end walk

def Invocation.IsPaused (invocation : Invocation) : Prop :=
  match invocation.stage with
  | .paused _ _ _ _ _ => True
  | _ => False

theorem Invocation.IsPaused.stage_eq (paused : invocation.IsPaused) :
    ∃ session node number deadline next,
      invocation.stage = .paused session node number deadline next := by
  obtain ⟨_, _, _, _, _, _, _, _, _, _, stage⟩ := invocation
  cases stage with
  | paused => exact ⟨_, _, _, _, _, rfl⟩
  | _ => exact paused.elim

structure Desk.Stopped (desk : Desk) (invocation : Invocation) : Prop where
  paused : invocation.IsPaused
  cancelled : invocation.cancelled = true
  given : ∃ session command,
    desk.world.debugger.session? invocation.identity.session = some session ∧
      session.line = .given command

namespace Desk

variable {desk : Desk} {identity : Identity} {circuit : Circuit} {request : Request}

theorem wired_of_started {birth : Birth} {world : Surroundings}
    (wired : Wired Registry.builtin circuit)
    (started : .started birth.name identity circuit request ∈ log)
    (kept : Kept birth world log invocation past) :
    Wired Registry.builtin birth.circuit := by
  obtain ⟨standing, rest, follows, -⟩ := kept
  obtain ⟨-, same, -⟩ := follows.once identity circuit request started
  exact same ▸ wired

variable (stopped : desk.Stopped invocation) (sound : desk.Sound log)
  (found : desk.invocation? name = some invocation) (wired : Wired Registry.builtin circuit)
  (started : .started name identity circuit request ∈ log)
include stopped sound found wired started

/-- When it gets its turn, it ends. -/
theorem Stopped.wake :
    ∃ outcome, (invocation.wake desk.world).1.stage = .finished outcome ∧
      outcome.status = .stopped := by
  obtain ⟨isMember, named⟩ := mem_of_invocation? found
  obtain ⟨birth, past, -, kept⟩ := sound.kept invocation isMember
  have wired := wired_of_started wired (by rwa [← kept.name, named]) kept
  obtain ⟨standing, rest, follows, stands, seated⟩ := kept
  obtain ⟨found, command, present, given⟩ := stopped.given
  obtain ⟨session, node, number, deadline, next, stage⟩ := stopped.paused.stage_eq
  rw [Seated] at seated
  simp only [stage] at seated
  obtain ⟨rfl, -⟩ := seated
  have commanded : (desk.world.debugger.session? invocation.identity.session).bind
      Session.given? = some command := by
    rw [present, Option.bind_some, Session.given?, given]
  rw [stage] at stands
  obtain @⟨_, _, snapshot⟩ := stands
  rw [wake_of_given stage commanded]
  refine (follows.commanded command).ends_stopped wired ?_
  cases command with
  | resume => exact .inr ⟨trivial, mem_append_right _ (follows.token.mp stopped.cancelled)⟩
  | stop => exact .inl (Walk.halted_cons.mpr (.inl rfl))

/-- Whatever else happens, the stopped invocation rests until it gets its turn or is dropped,
and ends with its turn. -/
theorem Stopped.play (moves : List Move) :
    ∃ after, (desk.play moves).invocation? name = some after ∧
      ((∃ outcome, after.stage = .finished outcome ∧ outcome.status = .stopped) ∨
        after.stage = .dropped ∧ .drop name ∈ moves ∨ after.IsPaused ∧ .wake name ∉ moves) := by
  induction moves generalizing desk log invocation with
  | nil => exact ⟨invocation, found, .inr (.inr ⟨stopped.paused, not_mem_nil⟩)⟩
  | cons move moves ih =>
    have named := (mem_of_invocation? found).2
    have next := invocation?_make found move
    by_cases turn : move = .wake name
    · -- It ends, and stays so.
      obtain ⟨outcome, finished, status⟩ := stopped.wake sound found wired started
      rw [turn, Move.onInvocation, if_pos named.symm] at next
      have ended : ¬ (invocation.wake desk.world).1.Live := by
        rw [Live, finished]
        exact id
      obtain ⟨after, isAfter, same⟩ := stage_of_not_live next ended moves
      rw [play_cons, turn]
      exact ⟨after, isAfter, .inl ⟨outcome, same.trans finished, status⟩⟩
    · by_cases drop : move = .drop name
      · have dropped : (move.onInvocation desk.world invocation).stage = .dropped := by
          obtain ⟨_, _, _, _, _, stage⟩ := stopped.paused.stage_eq
          rw [drop, Move.onInvocation, if_pos named.symm, Invocation.drop]
          simp only [stage]
        have ended : ¬ (move.onInvocation desk.world invocation).Live := by
          rw [Live, dropped]
          exact id
        obtain ⟨after, isAfter, same⟩ := stage_of_not_live next ended moves
        refine ⟨after, isAfter, .inr (.inl ⟨same.trans dropped, ?_⟩)⟩
        exact drop ▸ mem_cons_self
      · obtain ⟨cancelled, owed, same, keeps⟩ :=
          Move.onInvocation_eq desk.world (named ▸ turn) (named ▸ drop)
        rw [same] at next
        have beside := sound.beside found move turn drop
        have still : (desk.make move).Stopped { invocation with cancelled, owed } := by
          obtain ⟨session, command, present, given⟩ := stopped.given
          refine ⟨stopped.paused, keeps stopped.cancelled,
            move.onSession invocation.identity.session session, command, ?_,
            (move.line_onSession _ (by simp [given]) (by simp [given])).trans given⟩
          exact beside.session.trans (congrArg (Option.map _) present)
        obtain ⟨after, isAfter, ends⟩ := ih still (sound.make move).1 next
          (mem_append_right _ started)
        refine ⟨after, isAfter, ends.imp_right (Or.imp ?_ ?_)⟩
        · exact fun dropped => ⟨dropped.1, mem_cons_of_mem _ dropped.2⟩
        · refine fun paused => ⟨paused.1, fun member => ?_⟩
          rcases mem_cons.mp member with same | member
          · exact turn same.symm
          · exact paused.2 member

end Desk

namespace Course

variable {origin : Run} {session : String} {later base : List Deed} {waited : Past}
  {result : Except Fault Unit × Walker} {action : String} {payload : Value}
  {next : Except Fault Value → Run}

/-- At its end a walk has heard the answers to all its questions. -/
theorem questions_of_done {standing : Standing}
    (course : Course false origin name session log standing past (Dialogue.done result))
    (rests : standing.Rests) : questions past = askedBy name log := by
  cases standing with
  | busy => exact rests.elim
  | asking =>
    obtain ⟨-, next, same⟩ := course.askedBy_eq
    cases same
  | ended =>
    rcases course.askedBy_eq with same | ⟨q, next, same, -⟩
    · exact same.symm
    · cases same

/-- A walk that waited for the host while its token was cancelled was told to end exactly if
it looked at the token afterwards. -/
theorem halted_iff {standing : Standing}
    (course : Course false origin name session (later ++ base) standing past (Dialogue.done result))
    (rests : standing.Rests)
    (stood : Course false origin name session base (.asking (.act action payload)) waited
      (Dialogue.ask (.act action payload) next))
    (grows : waited <:+ past) (going : ¬ Halted waited) (cancelled : .cancelled name ∈ base)
    (unpaused : ∀ session node snapshot, .asked name (.pause session node snapshot) ∉ later) :
    Halted past ↔ .asked name .isCancelled ∈ later := by
  have asked : askedBy name base = .act action payload :: questions waited := stood.askedBy_eq.1
  have all : questions past = askedBy name later ++ .act action payload :: questions waited := by
    rw [course.questions_of_done rests, askedBy_append, asked]
  have length : (askedBy name base).length = waited.length + 1 := by
    rw [asked, length_cons, questions, length_map]
  constructor
  · rintro ⟨⟨q, answer⟩, member, halts⟩
    obtain ⟨newer, older, split⟩ := append_of_mem member
    rcases Nat.lt_trichotomy older.length waited.length with before | here | since
    · -- It would have been told before it waited.
      have suffix : ⟨q, answer⟩ :: older <:+ past := ⟨newer, split.symm⟩
      have inside := suffix_of_suffix_length_le suffix grows before
      exact absurd ⟨_, inside.subset mem_cons_self, halts⟩ going
    · -- The answer of the host tells nobody to end.
      rw [split, questions, map_append, map_cons] at all
      have same := append_inj_right' all (by simp [questions, here])
      cases (List.cons.inj same).1
      exact halts.elim
    · obtain ⟨between, suffix, isAsked, -⟩ := course.heard_since split
        (suffix_append later base) (by omega)
      have isLater : between <:+ later := by
        obtain ⟨front, same⟩ := suffix
        rw [← append_assoc] at same
        exact ⟨front, append_cancel_right same⟩
      cases q with
      | isCancelled => exact isLater.subset isAsked
      | pause id node snapshot => exact absurd (isLater.subset isAsked) (unpaused id node snapshot)
      | _ => exact halts.elim
  · intro member
    obtain ⟨front, back, rfl⟩ := append_of_mem member
    have split : questions past = askedBy name front ++ .isCancelled :: askedBy name (back ++ base) := by
      rw [course.questions_of_done rests, append_assoc, cons_append, askedBy_append]
      exact congrArg _ (filterMap_cons_some (if_pos rfl))
    obtain ⟨newer, rest, same, -, tail⟩ := map_eq_append_iff.mp split
    obtain ⟨⟨q, answer⟩, older, rfl, rfl, olders⟩ := map_eq_cons_iff.mp tail
    have longer : (askedBy name base).length ≤ older.length := by
      rw [← length_map (f := Exchange.query), olders, askedBy_append, length_append]
      omega
    obtain ⟨between, -, -, fits⟩ := course.heard_since same (suffix_append _ base) longer
    refine ⟨_, same ▸ mem_append_cons_self, ?_⟩
    exact fits.mpr (mem_append_right _ cancelled)

end Course

namespace Desk

variable {desk : Desk} {log : List Deed} {name : String} {invocation : Invocation}
  {identity : Identity} {circuit : Circuit} {request : Request} {debugger : Debugger}

section

variable (sound : desk.Sound log) (found : desk.invocation? name = some invocation)
include sound found

/-- A stop that is accepted finds the invocation in its session and cancels its token. -/
theorem Sound.stop_cancels
    (accepted : desk.world.debugger.stop invocation.identity.session = .ok debugger) :
    (∀ outcome, invocation.stage ≠ .finished outcome) ∧
      invocation.session = some invocation.identity.session ∧
      (desk.make (.stop invocation.identity.session)).invocation? name =
        some { invocation with cancelled := true } := by
  obtain ⟨member, named⟩ := mem_of_invocation? found
  obtain ⟨birth, past, -, kept⟩ := sound.kept invocation member
  have present := (desk.world.debugger.stop_eq_ok accepted).1
  obtain ⟨session, isOpen⟩ := Option.isSome_iff_exists.mp present
  have own : invocation.session = some invocation.identity.session := by
    rw [kept.identity] at isOpen ⊢
    exact (kept.home isOpen).1
  refine ⟨fun outcome finished => ?_, own, ?_⟩
  · obtain ⟨standing, rest, follows, -, seated⟩ := kept
    rw [Seated] at seated
    simp only [finished] at seated
    cases seated.symm.trans isOpen
  rw [invocation?_make found, Move.onInvocation, if_pos (by simp [present, own])]

/-- A paused invocation is given a command by a stop, if it has none yet. -/
theorem Sound.stopped_of_paused (paused : invocation.IsPaused) :
    (desk.make (.stop invocation.identity.session)).Stopped
      { invocation with cancelled := true } := by
  obtain ⟨member, named⟩ := mem_of_invocation? found
  obtain ⟨birth, past, -, standing, rest, follows, -, seated⟩ := sound.kept invocation member
  refine ⟨paused, rfl, ?_⟩
  obtain ⟨_, _, _, _, _, stage⟩ := paused.stage_eq
  rw [Seated] at seated
  simp only [stage] at seated
  obtain ⟨-, -, session, present, onLine⟩ := seated
  have told := (sound.beside found (.stop invocation.identity.session) (by simp) (by simp)).session
  rw [present, Option.map_some, Move.onSession, if_pos rfl] at told
  rcases onLine with waiting | ⟨command, given⟩
  · exact ⟨_, .stop, told, by simp only [Session.stop, waiting]⟩
  · exact ⟨_, command, told, by simp only [Session.stop, given]⟩

/-- An invocation that waits for the host when its token has been cancelled ends as stopped
exactly if its walk looks at the token once more. -/
theorem Sound.status_of_waiting {next : Except Fault Value → Run} {latest : Invocation}
    (wired : Wired Registry.builtin circuit)
    (started : .started name identity circuit request ∈ log)
    (waiting : invocation.stage = .waiting next) (cancelled : invocation.cancelled = true)
    (moves : List Move) (isLatest : (desk.play moves).invocation? name = some latest)
    (finished : latest.stage = .finished outcome) :
    outcome.status = .stopped ↔ .asked name .isCancelled ∈ desk.chronicle moves := by
  obtain ⟨member, named⟩ := mem_of_invocation? found
  obtain ⟨birth, waited, -, kept⟩ := sound.kept invocation member
  obtain ⟨played, carries⟩ := sound.play moves
  obtain ⟨after, isAfter, past, grows, kept'⟩ := carries invocation member birth waited kept
  have birthName : birth.name = name := kept.name.symm.trans named
  have wired := wired_of_started wired (birthName ▸ started) kept
  cases (played.invocation?_eq isAfter (kept'.name.trans birthName)).symm.trans isLatest
  rw [kept'.status_eq_stopped wired finished]
  obtain ⟨standing, rest, follows, stands, -⟩ := kept
  obtain ⟨standing', rest', follows', stands', -⟩ := kept'
  have isCancelled := follows.token.mp cancelled
  have course := follows.course
  have course' := follows'.course
  rw [finished] at stands'
  rw [waiting] at stands
  have heeds := follows.heeds wired
  rw [birthName] at course course' isCancelled
  cases stands with
  | waiting =>
    have going : ¬ Halted waited := by
      intro halted
      obtain ⟨moment, same⟩ := heeds.1.halted halted
      cases same
    cases stands' with
    | finished =>
      refine course'.halted_iff trivial course grows going isCancelled fun id node snapshot isAsked => ?_
      obtain ⟨front, back, split⟩ := append_of_mem isAsked
      have record : desk.chronicle moves ++ log =
          front ++ .asked name (.pause id node snapshot) :: (back ++ log) := by
        rw [split, append_assoc, cons_append]
      exact (played.remains record (mem_append_right _ isCancelled)).1 trivial

end

/-- The last event of an invocation that had a session and is over tells how it ended. -/
theorem Idle.lastNews (idle : desk.Idle) {before after : List Move} {latest : Invocation}
    (found : (desk.play before).invocation? name = some invocation)
    (opens : invocation.session.isSome = true)
    (isLatest : (desk.play (before ++ after)).invocation? name = some latest)
    (finished : latest.stage = .finished outcome) :
    lastNews? invocation.identity.session (desk.chronicle (before ++ after)) =
      some outcome.news := by
  obtain ⟨member, named⟩ := mem_of_invocation? found
  obtain ⟨birth, past, -, kept⟩ := (idle.play before).kept invocation member
  obtain ⟨last, isMember, past', ⟨newer, rfl⟩, kept'⟩ :=
    ((idle.play before).play after).2 invocation member birth past kept
  rw [← play_append] at isMember
  cases ((idle.play _).invocation?_eq isMember
    (kept'.name.trans (kept.name.symm.trans named))).symm.trans isLatest
  obtain ⟨_, _, isKept, ledger⟩ := idle.books isMember
  have reckoned := ledger.reckoned
  obtain ⟨_, _, follows, -⟩ := kept
  obtain ⟨_, _, follows', -⟩ := kept'
  have opens : latest.session.isSome = true := by
    rw [follows.session] at opens
    rw [follows'.session]
    exact Walk.isSome_opened_append newer opens
  simp only [Reckoned, finished, opens, if_true] at reckoned
  obtain ⟨older, phase, news, -⟩ := reckoned
  rw [Birth.session, ← isKept.identity, follows'.identity, ← follows.identity] at news
  rw [lastNews?_eq, news]
  rfl

/-- An accepted stop. The invocation ends as stopped, and the last event of its session says
so, exactly if it was paused or its walk looked at the token afterwards; and it does end with
its turn if it was paused. -/
theorem stopped_iff_paused_or_checked {desk : Desk} (idle : desk.Idle) (before after : List Move)
    {graph : Graph} (loaded : load Registry.builtin graph = .ok circuit)
    (started : .started name identity circuit request ∈ desk.chronicle before)
    (found : (desk.play before).invocation? name = some invocation)
    (accepted : (desk.play before).world.debugger.stop identity.session = .ok debugger) :
    let stopped := (desk.play before).make (.stop identity.session)
    let checked := invocation.IsPaused ∨ .asked name .isCancelled ∈ stopped.chronicle after
    let chronicle := desk.chronicle (before ++ .stop identity.session :: after)
    (∀ latest outcome, (stopped.play after).invocation? name = some latest →
      latest.stage = .finished outcome →
      (outcome.status = .stopped ↔ checked) ∧
        (lastNews? identity.session chronicle = some .stopped ↔ checked)) ∧
    (invocation.IsPaused → .wake name ∈ after → .drop name ∉ after →
      ∃ latest outcome, (stopped.play after).invocation? name = some latest ∧
        latest.stage = .finished outcome ∧ outcome.status = .stopped) := by
  intro stopped checked chronicle
  have wired := wired_of_load loaded
  have sound := idle.play before
  obtain ⟨member, named⟩ := mem_of_invocation? found
  have own : identity = invocation.identity := by
    obtain ⟨birth, past, -, standing, rest, follows, -⟩ := sound.kept invocation member
    rw [follows.identity]
    refine (follows.once identity circuit request ?_).1
    rwa [← follows.name, named]
  rw [own] at accepted
  obtain ⟨unfinished, opens, cancels⟩ := sound.stop_cancels found accepted
  have sound' := (sound.make (.stop identity.session)).1
  have started' := List.mem_append_right ((desk.play before).deeds (.stop identity.session)) started
  have next : stopped.invocation? name = some { invocation with cancelled := true } := own ▸ cancels
  have ends : invocation.IsPaused → _ := fun paused =>
    Stopped.play (own ▸ sound.stopped_of_paused found paused) sound' next wired started' after
  -- One that is over stays over, and it has not finished.
  have ended : ¬ invocation.Live → ∀ latest outcome, (stopped.play after).invocation? name =
      some latest → latest.stage ≠ .finished outcome := by
    intro ended latest outcome isLatest finished
    obtain ⟨last, isLast, same⟩ := stage_of_not_live next ended after
    cases isLast.symm.trans isLatest
    exact unfinished outcome (same.symm.trans finished)
  constructor
  · intro latest outcome isLatest finished
    have status : outcome.status = .stopped ↔ checked := by
      obtain ⟨_, _, _, _, _, _, _, _, _, _, stage⟩ := invocation
      cases stage with
      | paused =>
        obtain ⟨last, isLast, ended⟩ := ends trivial
        cases isLast.symm.trans isLatest
        refine ⟨fun _ => .inl trivial, fun _ => ?_⟩
        rcases ended with ⟨outcome', finished', status⟩ | ⟨dropped, -⟩ | ⟨paused, -⟩
        · cases finished'.symm.trans finished
          exact status
        · cases dropped.symm.trans finished
        · rw [IsPaused, finished] at paused
          exact paused.elim
      | waiting =>
        have decided := sound'.status_of_waiting next wired started' rfl rfl after isLatest finished
        exact decided.trans ⟨.inr, fun either => either.resolve_left id⟩
      | _ => exact absurd finished (ended id latest outcome isLatest)
    refine ⟨status, ?_⟩
    have isLatest : (desk.play (before ++ .stop identity.session :: after)).invocation? name =
        some latest := by
      rw [play_append]
      exact isLatest
    have news := idle.lastNews found (opens ▸ rfl) isLatest finished
    rw [own, news, Option.some_inj, Outcome.news_status.1]
    exact status
  · intro paused wakes drops
    obtain ⟨latest, isLatest, ended⟩ := ends paused
    rcases ended with ⟨outcome, finished, status⟩ | ⟨-, dropped⟩ | ⟨-, asleep⟩
    · exact ⟨latest, outcome, isLatest, finished, status⟩
    · exact absurd dropped drops
    · exact absurd wakes asleep

/-- Stopped while it is paused before its only node. -/
theorem stopped_iff_paused_or_checked_entryOnly :
    let stopped := (pausingDesk.play [entryStart]).make (.stop "s")
    ∃ latest outcome, (stopped.play [.wake "x"]).invocation? "x" = some latest ∧
      latest.stage = .finished outcome ∧ outcome.status = .stopped := by
  have found : ∃ invocation, (pausingDesk.play [entryStart]).invocation? "x" = some invocation ∧
      invocation.IsPaused := ⟨_, rfl, trivial⟩
  have accepted : ∃ debugger,
      (pausingDesk.play [entryStart]).world.debugger.stop "s" = .ok debugger := ⟨_, rfl⟩
  obtain ⟨invocation, found, paused⟩ := found
  obtain ⟨debugger, accepted⟩ := accepted
  have idle : pausingDesk.Idle := vacant_idle _
  have loaded : load Registry.builtin entryOnly = .ok (.ofGraph entryOnly) := rfl
  have started : .started "x" ⟨"i", "s", "t"⟩ (.ofGraph entryOnly) { entry := "start" } ∈
      pausingDesk.chronicle [entryStart] := by
    rw [chronicle_singleton]
    exact started_mem rfl
  refine (stopped_iff_paused_or_checked idle [entryStart] [.wake "x"] loaded started found
    accepted).2 paused List.mem_cons_self ?_
  intro member
  cases List.mem_singleton.mp member

def lastAction : Graph where
  id := "last"
  nodes := [
    { id := "start", kind := "on_event" },
    { id := "act", kind := "agent_action", config := [("action", .str "wait")] }]
  edges := [⟨⟨"start", "then"⟩, ⟨"act", "exec"⟩⟩]

/-- It waits for the host, in the session of a pause before its first node. -/
def waitingDesk : Desk :=
  (Desk.vacant [⟨"last", "start", true, none, 0⟩]).play
    [.start "x" ⟨"i", "s", "t"⟩ (.ofGraph lastAction) { entry := "start", capability := .gate },
      .resume "s" [], .wake "x"]

/-- The stop is accepted while the action waits. The host answers, and the invocation
completes. -/
theorem stop_lost_in_lastAction :
    (waitingDesk.world.debugger.stop "s").isOk = true ∧
    (waitingDesk.play [.stop "s", .release "x" (.ok (.int 1)), .wake "x"]).status? "x" =
      some .completed ∧
    (lastNews? "s" (waitingDesk.chronicle
      [.stop "s", .release "x" (.ok (.int 1)), .wake "x"])).map News.name = some "completed" := by
  refine ⟨?_, ?_, ?_⟩ <;> decide +kernel

end Desk

end Pinflow
