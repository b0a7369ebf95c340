import Pinflow.Proofs.Desk.Tallies

/-!
# The books of every invocation

Every move keeps the books of an invocation, whether it is its own turn or something that
reaches its session meanwhile. A resume is accepted exactly if the session waits for one, and
then it is the only news that others bring about.
-/

namespace Pinflow

open Invocation List Option

open Walk (Past)

variable {birth : Birth} {past : Past} {moves : List Move} {overrides : List (String × Value)}
  {session : Session} {cancelled cancelled' : Bool} {identity : Identity} {event : Event}
  {phase : Phase} {id name : String} {desk : Desk} {log : List Deed} {invocation : Invocation}
  {move : Move}

/-- A resume is accepted exactly if somebody waits for it. -/
theorem Debugger.resume_eq_ok {debugger : Debugger} :
    (debugger.resume id overrides).1 = .ok () ↔
      ∃ session, debugger.session? id = some session ∧ session.line = .waiting := by
  rw [resume]
  cases debugger.session? id with
  | none =>
    constructor
    · intro same
      cases same
    · rintro ⟨_, same, -⟩
      cases same
  | some session =>
    simp only [Session.resume, some_inj, exists_eq_left']
    cases session.line with
    | waiting => exact ⟨fun _ => rfl, fun _ => rfl⟩
    | _ => exact ⟨by simp, by simp⟩

namespace Desk

/-- The move resumes a session in which somebody waits for it. -/
def Move.Resumes (id : String) (session : Session) (move : Move) : Prop :=
  (∃ overrides, move = .resume id overrides) ∧ session.line = .waiting

/-- An event is published when an invocation begins or has its turn, for its own session, and
when somebody who waits in a session is resumed. -/
theorem Sound.published_cases (sound : desk.Sound log)
    (member : .published event ∈ desk.deeds move) :
    (∃ name identity circuit request, move = .start name identity circuit request ∧
      desk.admits name identity = true ∧ event.session = identity.session) ∨
    (∃ waking ∈ desk.invocations, move = .wake waking.name ∧
      event.session = waking.identity.session) ∨
    ∃ session, desk.world.debugger.session? event.session = some session ∧
      move.Resumes event.session session := by
  obtain ⟨name, identity, circuit, request, rfl, admits, begins⟩ | ⟨name, waking, rfl, found, turns⟩ |
    ⟨session, overrides, rfl, reported⟩ | ⟨_, same⟩ | ⟨_, same⟩ := mem_deeds_cases member
  · obtain ⟨-, free, unknown⟩ := sound.admitted admits
    obtain ⟨_, -, since⟩ :=
      kept_begin ⟨desk.settings, name, identity, circuit, request⟩ free unknown
    exact .inl ⟨name, identity, circuit, request, rfl, admits, (since.own _ begins).2 event rfl⟩
  · obtain ⟨isWaking, rfl⟩ := mem_of_invocation? found
    obtain ⟨birth, past, -, kept⟩ := sound.kept waking isWaking
    obtain ⟨_, -, since⟩ := kept.wake
    have own := (since.own _ turns).2 event rfl
    rw [Birth.session, ← kept.identity] at own
    exact .inr (.inl ⟨waking, isWaking, rfl, own⟩)
  · obtain rfl := published_of_report reported
    rw [deeds] at member
    split at member
    · rename_i ok
      obtain ⟨session, present, waiting⟩ := Debugger.resume_eq_ok.mp ok
      exact .inr (.inr ⟨session, present, ⟨overrides, rfl⟩, waiting⟩)
    · cases member
  · cases same
  · cases same

/-- A resume that is accepted is news. -/
theorem eventsOf_resumed (present : desk.world.debugger.session? id = some session)
    (resumes : move.Resumes id session) :
    eventsOf id (desk.deeds move) = [⟨id, session.graph, .resumed⟩] := by
  obtain ⟨⟨overrides, rfl⟩, waiting⟩ := resumes
  rw [deeds, Debugger.resume_eq_ok.mpr ⟨session, present, waiting⟩]
  simp only [eventsOf_report, present, Option.elim]

/-- There is no other news of a session that others bring about. -/
theorem Sound.eventsOf_beside (sound : desk.Sound log)
    (found : desk.invocation? name = some invocation) (turn : move ≠ .wake name)
    (refused : ∀ session,
      desk.world.debugger.session? invocation.identity.session = some session →
      ¬ move.Resumes invocation.identity.session session) :
    eventsOf invocation.identity.session (desk.deeds move) = [] := by
  obtain ⟨isMember, named⟩ := mem_of_invocation? found
  refine eventsOf_eq_nil fun event member own => ?_
  rcases sound.published_cases member with
    ⟨_, _, _, _, rfl, admits, theirs⟩ | ⟨waking, isWaking, rfl, theirs⟩ | ⟨session, present, resumes⟩
  · exact ((sound.admitted admits).1 invocation isMember).2 (own.symm.trans theirs)
  · have alike := sound.sessions invocation isMember waking isWaking (own.symm.trans theirs)
    exact turn (congrArg Move.wake (alike ▸ named))
  · rw [own] at present resumes
    exact refused session present resumes

/-- Whatever a session is told, nobody comes back to its line. -/
theorem Move.left_onSession (left : session.Left) : (move.onSession id session).Left := by
  obtain ⟨_, _, _, status, _, _, line⟩ := session
  cases move with
  | resume | stop =>
    rw [onSession]
    split
    · cases line with
      | waiting => exact absurd rfl left.1
      | _ => simp_all [Session.Left, Session.resume, Session.stop]
    · exact left
  | _ => exact left

/-- What a session shows after others have moved: that it was resumed, or the same as before. -/
theorem tallies_onSession {commands : List Command}
    (tallies : Tallies cancelled commands session.line session.status phase)
    (spoken : phase ≠ .fresh) (keeps : cancelled = true → cancelled' = true)
    (stops : move = .stop id → cancelled' = true) : let after := move.onSession id session
    (¬ move.Resumes id session ∧ Tallies cancelled' commands after.line after.status phase) ∨
      move.Resumes id session ∧ phase = .held ∧
        Tallies cancelled' commands after.line after.status .going := by
  have same := tallies.mono keeps (Subset.refl commands)
  cases move with
  | resume other overrides =>
    by_cases isOwn : other = id
    · obtain ⟨_, _, _, status, _, _, line⟩ := session
      simp only [Move.onSession, if_pos isOwn]
      cases tallies with
      | waits => exact .inr ⟨⟨⟨overrides, by rw [isOwn]⟩, rfl⟩, rfl, .resumed (.inl rfl)⟩
      | _ => exact .inl ⟨fun resumes => absurd resumes.2 (by simp), same⟩
    · refine .inl ⟨?_, ?_⟩
      · rintro ⟨⟨_, ⟨⟩⟩, -⟩
        exact isOwn rfl
      · simp only [Move.onSession, if_neg isOwn]
        exact same
  | stop other =>
    by_cases isOwn : other = id
    · have token := stops (congrArg Move.stop isOwn)
      obtain ⟨_, _, _, status, _, _, line⟩ := session
      simp only [Move.onSession, if_pos isOwn]
      refine .inl ⟨by simp [Move.Resumes], ?_⟩
      cases tallies with
      | opened => exact absurd rfl spoken
      | waits | stopped => exact .stopped token
      | resumed => exact .resumed (.inr ⟨rfl, token⟩)
      | goes => exact .goes (.inr ⟨rfl, token⟩)
      | ends told _ isOver => exact .ends told token isOver
    · simp only [Move.onSession, if_neg isOwn]
      exact .inl ⟨by simp [Move.Resumes], same⟩
  | _ => exact .inl ⟨by simp [Move.Resumes], same⟩

end Desk

section moves

open Desk (Move)

variable {deeds : List Deed} {world after : Surroundings}

structure Reached (birth : Birth) (move : Move) (world after : Surroundings)
    (deeds : List Deed) : Prop where
  session : after.debugger.session? birth.session =
    (world.debugger.session? birth.session).map (move.onSession birth.session)
  resumed : ∀ session, world.debugger.session? birth.session = some session →
    move.Resumes birth.session session →
    eventsOf birth.session deeds = [⟨birth.session, session.graph, .resumed⟩]
  refused : (∀ session, world.debugger.session? birth.session = some session →
    ¬ move.Resumes birth.session session) → eventsOf birth.session deeds = []
  commands : commandsTo birth.name deeds = []

namespace Reached

variable (reached : Reached birth move world after deeds)
include reached

theorem attuned (attuned : Attuned birth log) (kept : Kept birth world log invocation past) :
    Attuned birth (deeds ++ log) := by
  refine attuned.append fun event member => ?_
  by_cases resumes : ∃ session, world.debugger.session? birth.session = some session ∧
      move.Resumes birth.session session
  · obtain ⟨session, present, resumes⟩ := resumes
    rw [reached.resumed session present resumes] at member
    rw [mem_singleton.mp member]
    exact (kept.home present).2.1
  · rw [reached.refused fun session present isOne => resumes ⟨session, present, isOne⟩] at member
    cases member

/-- There is no news for a session at which nobody waits. -/
theorem silent (busy : ∀ session, world.debugger.session? birth.session = some session →
      session.line ≠ .waiting) :
    newsOf birth.session (deeds ++ log) = newsOf birth.session log := by
  have none : eventsOf birth.session deeds = [] :=
    reached.refused fun session present resumes => busy session present resumes.2
  rw [newsOf, eventsOf_append, none]
  rfl

theorem speaks (speaks : Speaks birth world cancelled log)
    (spoken : ∀ session, world.debugger.session? birth.session = some session →
      newsOf birth.session log ≠ []) (keeps : cancelled = true → cancelled' = true)
    (stops : (world.debugger.session? birth.session).isSome = true → move = .stop birth.session →
      cancelled' = true) : Speaks birth after cancelled' (deeds ++ log) := by
  cases present : world.debugger.session? birth.session with
  | none =>
    have silent : newsOf birth.session (deeds ++ log) = newsOf birth.session log :=
      reached.silent fun session isOpen => absurd (present.symm.trans isOpen) (by simp)
    have gone := reached.session
    rw [present, map_none] at gone
    rw [Speaks, present] at speaks
    rw [Speaks, gone]
    exact silent.trans speaks
  | some session =>
    obtain ⟨phase, told, tallies⟩ := speaks.rapport present
    have isOpen := reached.session
    rw [present, map_some] at isOpen
    have notFresh : phase ≠ .fresh := by
      rintro rfl
      exact spoken session present told.eq_nil
    have commands : commandsTo birth.name (deeds ++ log) = commandsTo birth.name log := by
      rw [commandsTo_append, reached.commands]
      rfl
    rcases Desk.tallies_onSession tallies notFresh keeps (stops (present ▸ rfl)) with
      ⟨refused, shows⟩ | ⟨resumes, rfl, shows⟩
    · refine .of_rapport isOpen ⟨?_, commands ▸ shows⟩
      rw [newsOf_append, newsOf, reached.refused fun other isOther => ?_]
      · exact told
      · cases present.symm.trans isOther
        exact refused
    · refine .of_rapport isOpen ⟨?_, commands ▸ shows⟩
      rw [newsOf_append, newsOf, reached.resumed session present resumes]
      exact .resumed told

end Reached

theorem Rapport.spoken (rapport : Rapport birth cancelled log session phase)
    (busy : session.line ≠ .idle) : newsOf birth.session log ≠ [] := by
  obtain ⟨told, tallies⟩ := rapport
  intro none
  rw [none] at told
  cases told.eq_fresh
  obtain ⟨_, _, _, _, _, _, line⟩ := session
  cases tallies with
  | opened => exact busy rfl
  | ends _ _ isOver => rcases isOver with same | same <;> cases same

/-- The moves of others keep the books. -/
theorem Ledger.beside (ledger : Ledger birth world log invocation)
    (kept : Kept birth world log invocation past) (reached : Reached birth move world after deeds)
    {owed : Owed} (keeps : invocation.cancelled = true → cancelled = true)
    (stops : (world.debugger.session? birth.session).isSome = true →
      move = .stop birth.session → cancelled = true) :
    Ledger birth after (deeds ++ log) { invocation with cancelled, owed } := by
  obtain ⟨attuned, reckoned⟩ := ledger
  refine ⟨reached.attuned attuned kept, ?_⟩
  obtain ⟨standing, rest, follows, stands, seated⟩ := kept
  rw [Reckoned] at reckoned ⊢
  rw [Seated, follows.session_eq] at seated
  cases stage : invocation.stage with
  | paused =>
    simp only [stage] at reckoned seated ⊢
    obtain ⟨-, -, found, present, onLine⟩ := seated
    have spoken : ∀ session, world.debugger.session? birth.session = some session →
        newsOf birth.session log ≠ [] := by
      intro session isOpen
      cases present.symm.trans isOpen
      obtain ⟨phase, rapport⟩ := reckoned.rapport present
      refine rapport.spoken fun idle => ?_
      rw [Session.OnLine, idle] at onLine
      rcases onLine with same | ⟨command, same⟩ <;> cases same
    exact reached.speaks reckoned spoken keeps stops
  | waiting =>
    simp only [stage] at reckoned ⊢
    obtain ⟨speaks, idles⟩ := reckoned
    refine ⟨reached.speaks speaks (fun session isOpen => (idles session isOpen).2) keeps stops,
      fun session isOpen => ?_⟩
    rw [reached.session] at isOpen
    obtain ⟨before, isBefore, rfl⟩ := map_eq_some_iff.mp isOpen
    obtain ⟨idle, spoken⟩ := idles before isBefore
    refine ⟨(Move.line_onSession _ _ (by simp [idle]) (by simp [idle])).trans idle,
      fun none => spoken ?_⟩
    rw [newsOf_append] at none
    exact (append_eq_nil_iff.mp none).2
  | finished | refused =>
    simp only [stage] at reckoned seated ⊢
    rw [reached.silent fun session isOpen => absurd (seated.symm.trans isOpen) (by simp)]
    exact reckoned
  | dropped =>
    simp only [stage] at reckoned ⊢
    obtain ⟨told, left⟩ := reckoned
    rw [reached.silent fun session isOpen => (left session isOpen).1]
    refine ⟨told, fun session isOpen => ?_⟩
    rw [reached.session] at isOpen
    obtain ⟨before, isBefore, rfl⟩ := map_eq_some_iff.mp isOpen
    exact Move.left_onSession (left before isBefore)

end moves

namespace Desk

/-- An invocation that is dropped leaves its session and its books as they are. -/
theorem ledger_drop (ledger : Ledger birth desk.world log invocation)
    (kept : Kept birth desk.world log invocation past)
    (found : desk.invocation? name = some invocation) :
    Ledger birth (desk.make (.drop name)).world log invocation.drop := by
  have reckoned := ledger.reckoned
  rw [Reckoned] at reckoned
  simp only [make, drop, found, Invocation.drop]
  cases stage : invocation.stage with
  | paused =>
    obtain ⟨rfl, -⟩ := kept.drop_paused stage
    simp only [stage] at reckoned
    -- Nobody is on the line any more.
    have left : (desk.world.debugger.abandon birth.session).session? birth.session = _ :=
      desk.world.debugger.amended_abandon.own
    refine ⟨ledger.attuned, reckoned.told, fun session isOpen => ?_⟩
    obtain ⟨before, isBefore, rfl⟩ := map_eq_some_iff.mp (left.symm.trans isOpen)
    obtain ⟨phase, rapport⟩ := reckoned.rapport isBefore
    exact rapport.left.2
  | waiting =>
    simp only [stage] at reckoned
    refine ⟨ledger.attuned, reckoned.1.told, fun session isOpen => ?_⟩
    exact reckoned.1.left_of_idle isOpen (reckoned.2 session isOpen).1
  | _ => exact ledger

/-- The moves of others, as far as they reach a session. -/
theorem Sound.reached (sound : desk.Sound log) (found : desk.invocation? name = some invocation)
    (kept : Kept birth desk.world log invocation past) (turn : move ≠ .wake name)
    (drop : move ≠ .drop name) :
    Reached birth move desk.world (desk.make move).world (desk.deeds move) := by
  have own : invocation.identity.session = birth.session :=
    congrArg Identity.session kept.identity
  have named : birth.name = name := kept.name.symm.trans (mem_of_invocation? found).2
  exact {
    session := own ▸ (sound.beside found move turn drop).session
    resumed := fun _ => eventsOf_resumed
    refused := own ▸ sound.eventsOf_beside found turn
    commands := named ▸ sound.commandsTo_beside found turn }

/-- A move keeps the books of an invocation. -/
theorem Sound.ledger_make (sound : desk.Sound log)
    (found : desk.invocation? invocation.name = some invocation)
    (kept : Kept birth desk.world log invocation past)
    (ledger : Ledger birth desk.world log invocation) (move : Move) :
    Ledger birth (desk.make move).world (desk.deeds move ++ log)
      (move.onInvocation desk.world invocation) := by
  by_cases turn : move = .wake invocation.name
  · subst turn
    rw [world_make_wake found, Move.onInvocation, if_pos rfl]
    simp only [deeds, found]
    exact ledger.wake kept
  · by_cases drop : move = .drop invocation.name
    · subst drop
      rw [Move.onInvocation, if_pos rfl]
      exact ledger_drop ledger kept found
    · obtain ⟨cancelled, owed, same, keeps⟩ := Move.onInvocation_eq desk.world turn drop
      rw [same]
      refine ledger.beside kept (sound.reached found kept turn drop) keeps ?_
      rintro present rfl
      have stopped := congrArg Invocation.cancelled same
      obtain ⟨session, isOpen⟩ := isSome_iff_exists.mp present
      rw [Move.onInvocation, if_pos (by simp [present, (kept.home isOpen).1])] at stopped
      exact stopped.symm

/-- Every invocation has its books, and every event is about the session of one of them. -/
structure Booked (desk : Desk) (log : List Deed) : Prop where
  sound : desk.Sound log
  owned : ∀ event, .published event ∈ log →
    ∃ invocation ∈ desk.invocations, invocation.identity.session = event.session
  ledgers : ∀ birth invocation, birth.settings = desk.settings → birth.deed ∈ log →
    desk.invocation? birth.name = some invocation → Ledger birth desk.world log invocation

namespace Booked

variable (booked : desk.Booked log)
include booked

theorem owned_make (published : .published event ∈ desk.deeds move ++ log) :
    ∃ invocation ∈ (desk.make move).invocations, invocation.identity.session = event.session := by
  -- An owner stays on the desk.
  have stays : ∀ {id}, (∃ invocation ∈ desk.invocations, invocation.identity.session = id) →
      ∃ invocation ∈ (desk.make move).invocations, invocation.identity.session = id := by
    rintro id ⟨invocation, isMember, own⟩
    obtain ⟨birth, past, -, kept⟩ := booked.sound.kept invocation isMember
    obtain ⟨after, isAfter, _, -, kept'⟩ :=
      (booked.sound.make move).2 invocation isMember birth past kept
    exact ⟨after, isAfter, by rw [kept'.identity, ← kept.identity, own]⟩
  rcases mem_append.mp published with isNew | old
  · rcases booked.sound.published_cases isNew with
      ⟨_, identity, _, _, rfl, admits, own⟩ | ⟨waking, isWaking, -, own⟩ | ⟨_, present, -⟩
    · rw [make_start_of_admits admits, own]
      refine ⟨_, mem_append_right _ mem_cons_self, ?_⟩
      exact congrArg Identity.session (begin_identity _ _ _ _ _ _).2
    · exact stays ⟨waking, isWaking, own.symm⟩
    · exact stays (booked.sound.owners event.session (present ▸ rfl))
  · exact stays (booked.owned event old)

/-- There is no news about the session of an invocation that is admitted. -/
theorem silent_of_admits (admits : desk.admits name identity = true) :
    eventsOf identity.session log = [] := by
  obtain ⟨others, -, -⟩ := booked.sound.admitted admits
  refine eventsOf_eq_nil fun event member own => ?_
  obtain ⟨other, isOther, same⟩ := booked.owned event member
  exact (others other isOther).2 (same.trans own)

theorem make (move : Move) : (desk.make move).Booked (desk.deeds move ++ log) := by
  have sound' := (booked.sound.make move).1
  refine ⟨sound', fun _ => booked.owned_make, ?_⟩
  rintro ⟨settings, name, identity, circuit, request⟩ after same born found
  obtain rfl : settings = desk.settings := same.trans (settings_make desk move)
  cases before : desk.invocation? name with
  | some invocation =>
    obtain ⟨member, rfl⟩ := mem_of_invocation? before
    obtain ⟨birth, past, same, kept⟩ := booked.sound.kept invocation member
    obtain rfl := sound'.born_unique (mem_append_right _ kept.born) born kept.name.symm same
    cases (invocation?_make before move).symm.trans found
    have ledger := booked.ledgers _ invocation rfl kept.born before
    exact booked.sound.ledger_make before kept ledger move
  | none =>
    obtain ⟨identity', circuit', request', rfl, admits, rfl⟩ :=
      invocation?_make_of_none before found
    have isBorn : Birth.deed ⟨desk.settings, name, identity', circuit', request'⟩ ∈
        desk.deeds (.start name identity' circuit' request') ++ log :=
      mem_append_left _ (started_mem admits)
    cases sound'.born_unique isBorn born rfl rfl
    obtain ⟨-, free, unknown⟩ := booked.sound.admitted admits
    rw [deeds, if_pos admits, make_start_of_admits admits]
    exact ledger_begin free (booked.silent_of_admits admits) unknown

end Booked

/-- The books of every invocation are kept in every play. -/
theorem Idle.booked (idle : desk.Idle) (moves : List Move) :
    (desk.play moves).Booked (desk.chronicle moves) :=
  chronicle_rule Booked (fun move booked => booked.make move) ⟨idle.sound,
    fun _ member => absurd member not_mem_nil, fun _ _ _ born => absurd born not_mem_nil⟩ moves

/-- An invocation on the desk, with its birth and its books. -/
theorem Idle.books (idle : desk.Idle) (member : invocation ∈ (desk.play moves).invocations) :
    ∃ birth past,
      Kept birth (desk.play moves).world (desk.chronicle moves) invocation past ∧
      Ledger birth (desk.play moves).world (desk.chronicle moves) invocation := by
  obtain ⟨sound, -, ledgers⟩ := idle.booked moves
  obtain ⟨birth, past, settings, kept⟩ := sound.kept invocation member
  exact ⟨birth, past, kept, ledgers birth invocation settings kept.born
    (sound.invocation?_eq member kept.name)⟩

end Desk

end Pinflow
