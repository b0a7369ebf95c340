import Pinflow.Proofs.Desk.Lives

/-!
# A session and its news

How the session of an invocation, what is on its line and the events published for it go
together. The events tell of one phase after another (`Told`), and the line and the status of
the session show which phase that is (`Tallies`). Whatever the nodes of a circuit are, both
hold of every invocation after every play (`Desk.Idle.books`).
-/

namespace Pinflow

open Debugger Dialogue Invocation List Option Session

open Walk (Past JustOpened opened)

variable {session : Session} {id node : String} {result : Except Fault Unit} {next : Command → Run}
  {q : Query} {debugger : Debugger} {command : Command} {snapshot : Value} {walker : Walker}
  {phase : Phase} {birth : Birth} {world world' : Surroundings} {log : List Deed} {past : Past}

def Deed.event? (id : String) : Deed → Option Event
  | .published event => if event.session = id then some event else none
  | _ => none

/-- The events of a session, latest first. -/
def eventsOf (id : String) (log : List Deed) : List Event := log.filterMap (Deed.event? id)

/-- The news of a session, latest first. -/
def newsOf (id : String) (log : List Deed) : List News := (eventsOf id log).map Event.news

theorem eventsOf_append (id : String) (later earlier : List Deed) :
    eventsOf id (later ++ earlier) = eventsOf id later ++ eventsOf id earlier :=
  filterMap_append

theorem newsOf_append (id : String) (later earlier : List Deed) :
    newsOf id (later ++ earlier) = newsOf id later ++ newsOf id earlier := by
  rw [newsOf, eventsOf_append, map_append]
  rfl

@[simp] theorem newsOf_asked (id name : String) (q : Query) (log : List Deed) :
    newsOf id (.asked name q :: log) = newsOf id log := rfl

theorem lastNews?_eq (id : String) (log : List Deed) :
    lastNews? id log = (newsOf id log).head? := by
  rw [newsOf, eventsOf, head?_map, head?_filterMap, map_findSome?]
  refine congrArg (log.findSome? ·) (funext fun deed => ?_)
  cases deed with
  | published event =>
    simp only [Function.comp_apply, Deed.event?]
    split <;> rfl
  | _ => rfl

theorem mem_eventsOf {event : Event} :
    event ∈ eventsOf id log ↔ .published event ∈ log ∧ event.session = id := by
  rw [eventsOf, mem_filterMap]
  constructor
  · rintro ⟨deed, member, same⟩
    cases deed with
    | published =>
      rw [Deed.event?] at same
      split at same
      · cases same
        exact ⟨member, by assumption⟩
      · cases same
    | _ => cases same
  · rintro ⟨member, own⟩
    exact ⟨_, member, if_pos own⟩

theorem eventsOf_eq_nil {deeds : List Deed}
    (others : ∀ event, .published event ∈ deeds → event.session ≠ id) : eventsOf id deeds = [] := by
  refine eq_nil_iff_forall_not_mem.mpr fun event member => ?_
  obtain ⟨published, own⟩ := mem_eventsOf.mp member
  exact others event published own

theorem eventsOf_report {news : Session → News} :
    eventsOf id (debugger.report id news) =
      (debugger.session? id).elim [] fun session => [⟨id, session.graph, news session⟩] := by
  rw [report]
  cases debugger.session? id with
  | none => rfl
  | some => exact filterMap_cons_some (if_pos rfl)

/-- How far the news of a session have come: there are none, the invocation is held at a
breakpoint, it goes on, its pause has lasted too long, or it is over. -/
inductive Phase where
  | fresh
  | held
  | going
  | expired
  | closed

/-- The news of a session up to a phase, latest first. An invocation that has not been
resumed since its pause closes its session with news that `closes` allows. -/
inductive Told (closes : News → Prop) : Phase → List News → Prop
  | fresh : Told closes .fresh []
  | paused {phase : Phase} {tale : List News} {invocation node : String} {snapshot : Value}
      (before : Told closes phase tale) (goes : phase = .fresh ∨ phase = .going) :
      Told closes .held (.paused invocation node snapshot :: tale)
  | resumed {tale : List News} (before : Told closes .held tale) :
      Told closes .going (.resumed :: tale)
  | expired {tale : List News} {message : String} (before : Told closes .held tale) :
      Told closes .expired (.error message :: tale)
  | closed {phase : Phase} {tale : List News} {result : Except Fault Unit}
      (before : Told closes phase tale)
      (isOver : phase = .going ∨
        (phase = .held ∨ phase = .expired) ∧ closes (closingNews result)) :
      Told closes .closed (closingNews result :: tale)

namespace Told

variable {closes : News → Prop} {tale : List News}

theorem mono {weaker : News → Prop} (told : Told closes phase tale)
    (weakens : ∀ news, closes news → weaker news) : Told weaker phase tale := by
  induction told with
  | fresh => exact .fresh
  | paused before goes ih => exact .paused ih goes
  | resumed before ih => exact .resumed ih
  | expired before ih => exact .expired ih
  | closed before isOver ih =>
    exact .closed ih (isOver.imp_right fun late => ⟨late.1, weakens _ late.2⟩)

theorem eq_nil (told : Told closes .fresh tale) : tale = [] := by
  cases told
  rfl

theorem eq_fresh (told : Told closes phase []) : phase = .fresh := by
  cases told
  rfl

end Told

/-- What the line and the status of a session show while its invocation is not over, by how
far its news have come. -/
inductive Tallies (cancelled : Bool) (commands : List Command) :
    Line → SessionStatus → Phase → Prop
  | opened : Tallies cancelled commands .idle .running .fresh
  | waits : Tallies cancelled commands .waiting .paused .held
  | stopped (token : cancelled = true) : Tallies cancelled commands (.given .stop) .stopped .held
  | resumed {overrides : List (String × Value)} {status : SessionStatus}
      (goes : status = .running ∨ status = .stopped ∧ cancelled = true) :
      Tallies cancelled commands (.given (.resume overrides)) status .going
  | goes {status : SessionStatus}
      (goes : status = .running ∨ status = .stopped ∧ cancelled = true) :
      Tallies cancelled commands .idle status .going
  | ends {phase : Phase} (told : .stop ∈ commands) (token : cancelled = true)
      (isOver : phase = .held ∨ phase = .expired) :
      Tallies cancelled commands .idle .stopped phase

/-- Nobody waits for a command any more, and a session that counts as paused shows it. -/
def Session.Left (session : Session) : Prop :=
  session.line ≠ .waiting ∧ (session.status = .paused ↔ session.line = .abandoned)

/-- The walk can end with this news after it has been told to stop. -/
def Birth.Closes (birth : Birth) (news : News) : Prop :=
  ∃ past result walker, birth.walk.Leads past (done (result, walker)) ∧
    .stop ∈ Walk.commands past ∧ news = closingNews result

structure Rapport (birth : Birth) (cancelled : Bool) (log : List Deed) (session : Session)
    (phase : Phase) : Prop where
  told : Told birth.Closes phase (newsOf birth.session log)
  tallies : Tallies cancelled (commandsTo birth.name log) session.line session.status phase

/-- An invocation that is not over has not left its line, but if it is dropped it leaves it. -/
theorem Rapport.left {cancelled : Bool} (rapport : Rapport birth cancelled log session phase) :
    session.line ≠ .abandoned ∧ session.abandon.Left := by
  obtain ⟨-, tallies⟩ := rapport
  obtain ⟨_, _, _, status, _, _, line⟩ := session
  cases tallies with
  | resumed goes | goes goes =>
    rcases goes with rfl | ⟨rfl, -⟩ <;> simp [Session.Left, Session.abandon]
  | _ => simp [Session.Left, Session.abandon]

/-- The events of a session are about the circuit of its invocation. -/
def Attuned (birth : Birth) (log : List Deed) : Prop :=
  ∀ event ∈ eventsOf birth.session log, event.graph = birth.circuit.id

/-- The news about an invocation that is not over. -/
def Speaks (birth : Birth) (world : Surroundings) (cancelled : Bool) (log : List Deed) : Prop :=
  match world.debugger.session? birth.session with
  | none => newsOf birth.session log = []
  | some session => ∃ phase, Rapport birth cancelled log session phase

/-- The session of an invocation that is driven. -/
structure Engaged (birth : Birth) (world : Surroundings) (log : List Deed) (cancelled : Bool)
    (past : Past) : Prop where
  attuned : Attuned birth log
  speaks : Speaks birth world cancelled log
  idle : ∀ session, world.debugger.session? birth.session = some session →
    session.line = .idle ∧ (newsOf birth.session log = [] → JustOpened past)

def Reckoned (birth : Birth) (world : Surroundings) (log : List Deed) (invocation : Invocation) :
    Prop :=
  let own := world.debugger.session? birth.session
  match invocation.stage with
  | .paused _ _ _ _ _ => Speaks birth world invocation.cancelled log
  | .waiting _ => Speaks birth world invocation.cancelled log ∧
      ∀ session, own = some session → session.line = .idle ∧ newsOf birth.session log ≠ []
  | .finished outcome =>
      if invocation.session.isSome then ∃ older phase,
        newsOf birth.session log = outcome.news :: older ∧ Told birth.Closes phase older ∧
          phase ≠ .fresh ∧ phase ≠ .closed ∧ Told birth.Closes .closed (newsOf birth.session log)
      else newsOf birth.session log = []
  | .refused _ => newsOf birth.session log = []
  | .dropped => (∃ phase, Told birth.Closes phase (newsOf birth.session log)) ∧
      ∀ session, own = some session → session.Left

/-- The books of an invocation between moves. -/
structure Ledger (birth : Birth) (world : Surroundings) (log : List Deed)
    (invocation : Invocation) : Prop where
  attuned : Attuned birth log
  reckoned : Reckoned birth world log invocation

section changes

variable {cancelled : Bool}

theorem Attuned.append (attuned : Attuned birth log) {deeds : List Deed}
    (graphs : ∀ event ∈ eventsOf birth.session deeds, event.graph = birth.circuit.id) :
    Attuned birth (deeds ++ log) := by
  intro event member
  rw [eventsOf_append] at member
  exact (mem_append.mp member).elim (graphs event) (attuned event)

theorem Tallies.mono {commands more : List Command} {line : Line} {status : SessionStatus}
    {cancelled' : Bool} (tallies : Tallies cancelled commands line status phase)
    (keeps : cancelled = true → cancelled' = true) (grows : commands ⊆ more) :
    Tallies cancelled' more line status phase := by
  cases tallies with
  | opened => exact .opened
  | waits => exact .waits
  | stopped token => exact .stopped (keeps token)
  | resumed goes => exact .resumed (goes.imp_right fun stopped => ⟨stopped.1, keeps stopped.2⟩)
  | goes goes => exact .goes (goes.imp_right fun stopped => ⟨stopped.1, keeps stopped.2⟩)
  | ends told token isOver => exact .ends (grows told) (keeps token) isOver

theorem Speaks.aside (speaks : Speaks birth world cancelled log) (deeds : List Deed)
    (same : world'.debugger.session? birth.session = world.debugger.session? birth.session)
    (silent : eventsOf birth.session deeds = []) (free : commandsTo birth.name deeds = []) :
    Speaks birth world' cancelled (deeds ++ log) := by
  have news : newsOf birth.session (deeds ++ log) = newsOf birth.session log := by
    rw [newsOf, eventsOf_append, silent]
    rfl
  rw [Speaks, same]
  rw [Speaks] at speaks
  split at speaks
  · exact news.trans speaks
  · obtain ⟨phase, told, tallies⟩ := speaks
    refine ⟨phase, news ▸ told, ?_⟩
    rw [commandsTo_append, free]
    exact tallies

/-- A session that is there has news, unless it has just been opened. -/
theorem Speaks.rapport (speaks : Speaks birth world cancelled log)
    (present : world.debugger.session? birth.session = some session) :
    ∃ phase, Rapport birth cancelled log session phase := by
  rwa [Speaks, present] at speaks

theorem Speaks.of_rapport (present : world.debugger.session? birth.session = some session)
    (rapport : Rapport birth cancelled log session phase) : Speaks birth world cancelled log := by
  rw [Speaks, present]
  exact ⟨phase, rapport⟩

theorem Speaks.told (speaks : Speaks birth world cancelled log) :
    ∃ phase, Told birth.Closes phase (newsOf birth.session log) := by
  rw [Speaks] at speaks
  split at speaks
  · rw [speaks]
    exact ⟨.fresh, .fresh⟩
  · obtain ⟨phase, rapport⟩ := speaks
    exact ⟨phase, rapport.told⟩

theorem Speaks.left_of_idle (speaks : Speaks birth world cancelled log)
    (present : world.debugger.session? birth.session = some session)
    (idle : session.line = .idle) : session.Left := by
  obtain ⟨phase, rapport⟩ := speaks.rapport present
  have left := rapport.left.2
  rwa [Session.abandon, idle] at left

/-- A question that is answered without the session. -/
theorem Engaged.asked (engaged : Engaged birth world log cancelled past) {name : String}
    (answer : q.Answer) (careful : Walk.Careful q past)
    (speaks : ∀ session node snapshot, q ≠ .pause session node snapshot)
    (same : world'.debugger.session? birth.session = world.debugger.session? birth.session) :
    Engaged birth world' (.asked name q :: log) cancelled (⟨q, answer⟩ :: past) where
  attuned := engaged.attuned
  speaks := engaged.speaks.aside [.asked name q] same rfl rfl
  idle session present := by
    obtain ⟨idle, opened⟩ := engaged.idle session (same ▸ present)
    refine ⟨idle, fun none => ?_⟩
    obtain ⟨id, node, snapshot, isPause⟩ := careful.prompt (opened none)
    exact absurd isPause (speaks id node snapshot)

end changes

namespace Invocation

/-- A pause that has lasted too long is reported as such. -/
theorem eventsOf_expiry (invocation : Invocation) (node : String)
    (present : world.debugger.session? id = some session) :
    eventsOf id (invocation.expiry world id node) =
      match world.debugger.patience with
      | some patience => [⟨id, session.graph,
          .error (s!"paused at {node} for longer than " ++ durationText patience)⟩]
      | none => [] := by
  have same : eventsOf id (invocation.expiry world id node) =
      eventsOf id (match world.debugger.patience with
        | some patience => world.debugger.report id fun _ =>
            .error (s!"paused at {node} for longer than " ++ durationText patience)
        | none => []) := rfl
  rw [same]
  cases world.debugger.patience with
  | none => rfl
  | some =>
    rw [eventsOf_report, present]
    rfl

end Invocation

/-- The session of an invocation that has paused and has been told nothing since. -/
structure Parked (birth : Birth) (world : Surroundings) (log : List Deed) (session : Session) :
    Prop where
  attuned : Attuned birth log
  told : Told birth.Closes .held (newsOf birth.session log)
  present : world.debugger.session? birth.session = some session
  graph : session.graph = birth.circuit.id

section drive

variable {deeds : List Deed} {invocation after : Invocation} {rest : Run}

/-- A pause has lasted too long. -/
theorem Parked.expire (parked : Parked birth world log session)
    (named : invocation.name = birth.name) (node : String) (past : Past) :
    Engaged birth (invocation.expire world birth.session node).2
      (invocation.expiry world birth.session node ++ log) true past := by
  have expired : (invocation.expire world birth.session node).2.debugger.session? birth.session =
      some (session.proceed .stop) :=
    (world.debugger.amended_expire node).session?_of_some parked.present
  have commands : commandsTo birth.name (invocation.expiry world birth.session node) = [.stop] :=
    named ▸ commandsTo_expiry
  have events := invocation.eventsOf_expiry node parked.present
  -- The news say so, if the debugger has run out of patience.
  have told : ∃ phase, (phase = .held ∨ phase = .expired) ∧ Told birth.Closes phase
      (newsOf birth.session (invocation.expiry world birth.session node ++ log)) := by
    rw [newsOf_append, newsOf, events]
    cases world.debugger.patience with
    | none => exact ⟨.held, .inl rfl, parked.told⟩
    | some => exact ⟨.expired, .inr rfl, .expired parked.told⟩
  obtain ⟨phase, isOver, told⟩ := told
  refine ⟨?_, .of_rapport expired ⟨told, .ends ?_ rfl isOver⟩, fun other isOpen => ?_⟩
  · refine parked.attuned.append fun event member => ?_
    rw [events] at member
    split at member
    · rw [mem_singleton.mp member]
      exact parked.graph
    · cases member
  · rw [commandsTo_append, commands]
    exact mem_cons_self
  · cases expired.symm.trans isOpen
    refine ⟨rfl, fun none => ?_⟩
    rw [none] at told
    cases told.eq_fresh
    rcases isOver with same | same <;> cases same

namespace Follows

/-- An invocation whose token is cancelled begins nothing. -/
theorem begins_of_cancelled {next : q.Answer → Run}
    (follows : Follows birth log invocation .busy past (ask q next))
    (cancelled : invocation.cancelled = true) : ¬ Walk.Begins q := fun begins =>
  follows.course.not_cancelled_of_cleared id (follows.careful.begins begins)
    (follows.token.mp cancelled)

section

variable
  (follows : Follows birth log invocation .busy past (ask (.pause id node snapshot) next))
  (lodged : Lodged world invocation)
  (engaged : Engaged birth world log invocation.cancelled past)
include follows lodged engaged

/-- The session in which an invocation is about to pause. It has not been stopped. -/
theorem session_of_pause :
    ∃ session phase, world.debugger.session? birth.session = some session ∧
      session.status ≠ .stopped ∧ (phase = .fresh ∨ phase = .going) ∧
      Told birth.Closes phase (newsOf birth.session log) := by
  have isOpen : opened past = some id := follows.careful.pauses id node snapshot rfl
  have present : (world.debugger.session? birth.session).isSome = true := by
    rw [← follows.session_eq, lodged.1, follows.session, isOpen]
    rfl
  obtain ⟨session, present⟩ := isSome_iff_exists.mp present
  have uncancelled : invocation.cancelled ≠ true :=
    fun cancelled => follows.begins_of_cancelled cancelled trivial
  obtain ⟨phase, told, tallies⟩ := engaged.speaks.rapport present
  refine ⟨session, phase, present, ?_⟩
  rw [(engaged.idle session present).1] at tallies
  generalize session.status = status at tallies
  cases tallies with
  | opened => exact ⟨nofun, .inl rfl, told⟩
  | goes goes =>
    rcases goes with rfl | ⟨-, token⟩
    · exact ⟨nofun, .inr rfl, told⟩
    · exact absurd token uncancelled
  | ends _ token => exact absurd token uncancelled

/-- A pause begins. -/
theorem parked (begun : world.debugger.beginPause id node snapshot = some debugger) :
    id = birth.session ∧ ∃ session : Session,
      Parked birth { world with debugger }
        (pausing world id node snapshot ++
          .asked invocation.name (.pause id node snapshot) :: log)
        (session.pause node snapshot) := by
  obtain ⟨session, phase, present, -, goes, told⟩ := follows.session_of_pause lodged engaged
  obtain rfl := follows.own_of_pause
  have paused := (world.debugger.amended_beginPause begun).session?_of_some present
  have home : session.graph = birth.circuit.id :=
    (lodged.2 session (follows.session_eq ▸ present)).1.trans follows.graph
  have events : eventsOf birth.session (pausing world birth.session node snapshot) =
      [⟨birth.session, session.graph, .paused session.invocation node snapshot⟩] := by
    rw [pausing, eventsOf_report, present]
    rfl
  refine ⟨rfl, session, ?_, ?_, paused, home⟩
  · have asked : Attuned birth (.asked invocation.name (.pause birth.session node snapshot) :: log) :=
      engaged.attuned
    refine asked.append fun event member => ?_
    rw [events] at member
    rw [mem_singleton.mp member]
    exact home
  · rw [newsOf_append, newsOf, events]
    exact .paused told goes

end

theorem engaged_reply {next : q.Answer → Run} {answer : q.Answer}
    (follows : Follows birth log invocation .busy past (ask q next))
    (lodged : Lodged world invocation)
    (engaged : Engaged birth world log invocation.cancelled past)
    (reply : Replies invocation world q answer after world' deeds) :
    Engaged birth world' (deeds ++ .asked invocation.name q :: log) after.cancelled
      (⟨q, answer⟩ :: past) := by
  have careful := follows.careful
  cases reply with
  | opens =>
    have none : world.debugger.session? birth.session = none := by
      rw [← not_isSome_iff_eq_none, ← follows.session_eq, lodged.1, follows.session,
        careful.opens rfl]
      exact Bool.false_ne_true
    have quiet : newsOf birth.session log = [] := by
      have speaks := engaged.speaks
      rwa [Speaks, none] at speaks
    have present : (invocation.openSession world).2.debugger.session? birth.session =
        some { id := invocation.identity.session, graph := invocation.graph,
               invocation := invocation.identity.invocation } := by
      refine (world.debugger.session?_openSession _).trans ?_
      rw [none, none_or]
      exact if_pos follows.session_eq
    refine ⟨?_, .of_rapport present ⟨?_, .opened⟩, fun session isOpen => ?_⟩
    · exact engaged.attuned
    · rw [nil_append, newsOf_asked, quiet]
      exact .fresh
    · cases present.symm.trans isOpen
      exact ⟨rfl, fun _ => trivial⟩
  | @refused id node snapshot gone =>
    -- A session that is there and has not been stopped refuses no pause.
    obtain ⟨session, -, present, going, -⟩ := follows.session_of_pause lodged engaged
    have begins : world.debugger.beginPause id node snapshot ≠ none := by
      rw [follows.own_of_pause, beginPause, present]
      simp [going]
    exact absurd gone begins
  | @impatient id node snapshot debugger begun =>
    obtain ⟨rfl, session, parked⟩ := follows.parked lodged engaged begun
    rw [append_assoc]
    exact parked.expire follows.name node _
  | acts =>
    rw [invocation.noteCall_eq]
    exact engaged.asked _ careful (by simp) rfl
  | _ => exact engaged.asked _ careful (by simp) rfl

/-- The news with which a walk ends close its session. -/
theorem closes
    (follows : Follows birth log invocation .busy past (done (result, walker)))
    (engaged : Engaged birth world log invocation.cancelled past)
    (present : world.debugger.session? birth.session = some session) :
    ∃ phase, Told birth.Closes phase (newsOf birth.session log) ∧ phase ≠ .fresh ∧
      phase ≠ .closed ∧
      Told birth.Closes .closed (closingNews result :: newsOf birth.session log) := by
  have settled : ¬ JustOpened past := by
    exact (birth.walk_careful.onward follows.course.leads).2
  obtain ⟨phase, told, tallies⟩ := engaged.speaks.rapport present
  obtain ⟨idle, opened⟩ := engaged.idle session present
  rw [idle] at tallies
  generalize session.status = status at tallies
  cases tallies with
  | opened => exact absurd (opened told.eq_nil) settled
  | goes =>
    exact ⟨.going, told, nofun, nofun,
      .closed told (.inl rfl)⟩
  | ends stop token isOver =>
    have closes : birth.Closes (closingNews result) :=
      ⟨past, result, walker, follows.course.leads, follows.course.commandsTo_eq ▸ stop, rfl⟩
    refine ⟨phase, told, ?_, ?_, .closed told (.inr ⟨isOver, closes⟩)⟩
    · rintro rfl
      rcases isOver with same | same <;> cases same
    · rintro rfl
      rcases isOver with same | same <;> cases same

/-- The walk has ended. -/
theorem ledger_finish
    (follows : Follows birth log invocation .busy past (done (result, walker)))
    (lodged : Lodged world invocation)
    (engaged : Engaged birth world log invocation.cancelled past) :
    let left := invocation.finish world result walker
    Ledger birth left.2 (invocation.record world (done (result, walker)) ++ log) left.1 := by
  intro left
  obtain ⟨archive, finished⟩ := invocation.finish_eq world result walker
  simp only [left, finished, record, follows.inSession]
  cases isOpen : invocation.session with
  | none =>
    have gone : world.debugger.session? birth.session = none := by
      rw [← not_isSome_iff_eq_none, ← follows.session_eq, lodged.1, isOpen]
      exact Bool.false_ne_true
    have speaks := engaged.speaks
    rw [Speaks, gone] at speaks
    exact ⟨engaged.attuned, speaks⟩
  | some =>
    obtain rfl := follows.own isOpen
    have present : (world.debugger.session? birth.session).isSome = true := by
      rw [← follows.session_eq, lodged.1, isOpen]
      rfl
    obtain ⟨session, present⟩ := isSome_iff_exists.mp present
    have gone : (world.debugger.closing (some birth.session) result).session? birth.session =
        none := (world.debugger.session?_closeSession result).trans (if_pos rfl)
    have events : eventsOf birth.session
        (world.debugger.report birth.session fun _ => closingNews result) =
          [⟨birth.session, session.graph, closingNews result⟩] := by
      rw [eventsOf_report, present]
      rfl
    have news : newsOf birth.session
        ((world.debugger.report birth.session fun _ => closingNews result) ++ log) =
          closingNews result :: newsOf birth.session log := by
      rw [newsOf_append, newsOf, events]
      rfl
    refine ⟨?_, ?_⟩
    · refine engaged.attuned.append fun event member => ?_
      rw [events] at member
      rw [mem_singleton.mp member]
      exact (lodged.2 session (follows.session_eq ▸ present)).1.trans follows.graph
    · obtain ⟨phase, told, notFresh, notClosed, closed⟩ := follows.closes engaged present
      refine ⟨newsOf birth.session log, phase, ?_, told, notFresh, notClosed, news ▸ closed⟩
      rw [news, news_outcome]

/-- A drive keeps the books. -/
theorem ledger_drive (follows : Follows birth log invocation .busy past rest)
    (lodged : Lodged world invocation)
    (engaged : Engaged birth world log invocation.cancelled past) :
    Ledger birth (invocation.drive world rest).2 (invocation.record world rest ++ log)
      (invocation.drive world rest).1 := by
  refine drive_rule
    (fun going world run log => ∃ past, Follows birth log going .busy past run ∧
      Lodged world going ∧ Engaged birth world log going.cancelled past)
    (fun left world log => Ledger birth world log left)
    ?_ ?_ ?_ ⟨past, follows, lodged, engaged⟩
  · rintro going world q next log answer after world' deeds ⟨past, follows, lodged, engaged⟩ reply
    exact ⟨_, follows.reply reply, reply.lodged follows.pause_own lodged,
      follows.engaged_reply lodged engaged reply⟩
  · rintro going world q next log after world' deeds ⟨past, follows, lodged, engaged⟩ wait
    have careful := follows.careful
    cases wait with
    | @pauses id node snapshot debugger next begun =>
      obtain ⟨rfl, session, parked⟩ := follows.parked lodged engaged begun
      exact ⟨parked.attuned, .of_rapport parked.present ⟨parked.told, .waits⟩⟩
    | acts =>
      rw [going.noteCall_eq]
      refine ⟨engaged.attuned, engaged.speaks.aside [.asked _ _] rfl rfl rfl,
        fun session present => ?_⟩
      obtain ⟨idle, opened⟩ := engaged.idle session present
      refine ⟨idle, fun none => ?_⟩
      obtain ⟨_, _, _, same⟩ := careful.prompt (opened none)
      cases same
    | exhausted =>
      refine ⟨engaged.attuned, engaged.speaks.told, fun session present => ?_⟩
      exact engaged.speaks.left_of_idle present (engaged.idle session present).1
  · rintro going world result walker log ⟨past, follows, lodged, engaged⟩
    exact follows.ledger_finish lodged engaged

end Follows

theorem Session.line_of_given? (given : session.given? = some command) :
    session.line = .given command := by
  rw [given?] at given
  split at given
  · cases given
    assumption
  · cases given

/-- An invocation goes on. -/
theorem Ledger.prompted {standing : Standing} {stood : Run}
    (ledger : Ledger birth world log invocation)
    (follows : Follows birth log invocation standing past stood) (seated : Seated world invocation)
    (prompted : Prompted invocation world after world' rest deeds) (now : Past) :
    Engaged birth world' (deeds ++ log) after.cancelled now := by
  obtain ⟨attuned, reckoned⟩ := ledger
  rw [Seated] at seated
  rw [Reckoned] at reckoned
  cases prompted with
  | @command id node number deadline next command paused given =>
    simp only [paused] at reckoned seated
    obtain ⟨rfl, -, session, present, -⟩ := seated
    rw [present, bind_some] at given
    rw [follows.session_eq] at present ⊢
    obtain ⟨phase, told, tallies⟩ := reckoned.rapport present
    rw [line_of_given? given] at tallies
    generalize session.status = status at tallies
    have taken := (world.debugger.amended_endPause command).session?_of_some present
    have commands : commandsTo birth.name (invocation.obedience command ++ log) =
        command :: commandsTo birth.name log := by
      rw [commandsTo_append, ← follows.name, commandsTo_obedience]
      rfl
    have news : newsOf birth.session (invocation.obedience command ++ log) =
        newsOf birth.session log := by
      cases command <;> rfl
    have spoken : newsOf birth.session log ≠ [] := by
      intro none
      rw [none] at told
      cases told.eq_fresh
      cases tallies
    refine ⟨?_, ?_, fun other isOpen => ?_⟩
    · cases command <;> exact attuned
    · cases command with
      | resume =>
        cases tallies
        exact .of_rapport taken ⟨news ▸ told, .goes (.inl rfl)⟩
      | stop =>
        cases tallies
        refine .of_rapport taken ⟨news ▸ told, .ends ?_ rfl (.inl rfl)⟩
        rw [commands]
        exact mem_cons_self
    · cases taken.symm.trans isOpen
      exact ⟨rfl, fun none => absurd (news.symm.trans none) spoken⟩
  | @expired id node number deadline next paused none =>
    simp only [paused] at reckoned seated
    obtain ⟨rfl, lodged, session, present, onLine⟩ := seated
    have graph := (lodged.2 session present).1.trans follows.graph
    rw [present, bind_some] at none
    rw [follows.session_eq] at present ⊢
    have waiting : session.line = .waiting := by
      rcases onLine with waiting | ⟨command, given⟩
      · exact waiting
      · rw [given?, given] at none
        cases none
    obtain ⟨phase, told, tallies⟩ := reckoned.rapport present
    rw [waiting] at tallies
    generalize session.status = status at tallies
    cases tallies
    exact Parked.expire ⟨attuned, told, present, graph⟩ follows.name node now
  | @answer next answer waiting =>
    simp only [waiting] at reckoned
    refine ⟨attuned, reckoned.1.aside [.answered _ _] rfl rfl rfl, fun session present => ?_⟩
    obtain ⟨idle, spoken⟩ := reckoned.2 session present
    exact ⟨idle, fun none => absurd none spoken⟩

/-- A turn of an invocation keeps the books. -/
theorem Ledger.wake (ledger : Ledger birth world log invocation)
    (kept : Kept birth world log invocation past) :
    Ledger birth (invocation.wake world).2 (invocation.turn world ++ log)
      (invocation.wake world).1 := by
  obtain ⟨standing, stood, follows, stands, seated⟩ := kept
  rcases invocation.wake_cases world with ⟨wakes, turns⟩ |
    ⟨going, world', run, deeds, prompted, wakes, turns⟩
  · rw [wakes, turns]
    exact ledger
  · rw [wakes, turns, append_assoc]
    obtain ⟨q, answer, -, busy⟩ := follows.prompted stands prompted
    exact busy.ledger_drive (prompted.lodged seated).1
      (ledger.prompted follows seated prompted _)

variable (free : world.debugger.session? birth.session = none)
  (silent : eventsOf birth.session log = [])
include free silent

/-- The session of an invocation before its first question: there is none. -/
theorem Engaged.begins (cancelled : Bool) (past : Past) :
    Engaged birth world
      (opening birth.circuit birth.name birth.identity birth.request ++ log) cancelled
      past := by
  have quiet : eventsOf birth.session
      (opening birth.circuit birth.name birth.identity birth.request ++ log) = [] := by
    rw [eventsOf_append, silent, append_nil]
    refine eventsOf_eq_nil fun event member => ?_
    rcases mem_opening.mp member with same | ⟨-, same⟩ <;> cases same
  refine ⟨fun event member => ?_, ?_, fun session present => ?_⟩
  · rw [quiet] at member
    cases member
  · rw [Speaks, free]
    show newsOf birth.session _ = []
    rw [newsOf, quiet]
    rfl
  · rw [free] at present
    cases present

/-- The books of an invocation that has begun. -/
theorem Invocation.ledger_begin (unknown : ∀ deed ∈ log, deed.name? ≠ some birth.name) :
    let begun := begin birth.settings world birth.circuit birth.name birth.identity
      birth.request
    let deeds := beginning birth.settings world birth.circuit birth.name birth.identity
      birth.request
    Ledger birth begun.2 (deeds ++ log) begun.1 := by
  have engaged := Engaged.begins free silent birth.request.cancelled []
  simp only [begin_eq, beginning]
  by_cases contains : birth.circuit.contains birth.request.entry = true
  · rw [if_pos contains, if_pos contains, append_assoc]
    obtain ⟨_, _, follows, ⟨rfl, rfl⟩, lodged⟩ := Kept.begins free unknown
    exact follows.ledger_drive lodged engaged
  · rw [if_neg contains, if_neg contains, nil_append]
    have news := engaged.speaks
    rw [Speaks, free] at news
    exact ⟨engaged.attuned, news⟩

end drive

end Pinflow
