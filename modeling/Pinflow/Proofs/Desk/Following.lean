import Pinflow.Proofs.Desk.Courses

/-!
# What every play keeps

The invariant of a desk and its chronicle. Every invocation on the desk follows a course of
its own walk, its token is cancelled exactly if that is on record, and its session is there
exactly as long as it needs one. Nobody's turn touches the session of another invocation.

An invocation that is driven is described by `Follows` alone; between moves `Kept` adds where
its stage has it stand.
-/

namespace Pinflow

open Dialogue Invocation List

open Walk (Past opened questions)

variable {id node other name : String} {rest : Run} {standing : Standing} {snapshot : Value}
  {next : Command → Run} {debugger : Debugger} {result : Except Fault Unit} {command : Command}
  {cancelled yields : Bool} {walker : Walker}

/-- What a recorder, if there is one, has heard of the questions of a walk. -/
def recorded (first : Option Recorder) : List Query → Option Recorder
  | [] => first
  | .announce moment :: asked => (recorded first asked).map (·.observe moment)
  | _ :: asked => recorded first asked

def Request.recorder (request : Request) (settings : EngineSettings) : Option Recorder :=
  if request.traced.getD settings.traceByDefault then some { most := settings.maxSnapshot } else none

/-- How an invocation came about. -/
structure Birth where
  settings : EngineSettings
  name : String
  identity : Identity
  circuit : Circuit
  request : Request

namespace Birth

def walk (birth : Birth) : Run :=
  origin birth.settings birth.circuit birth.identity birth.request

/-- The session of the invocation, once it has one. -/
def session (birth : Birth) : String := birth.identity.session

def deed (birth : Birth) : Deed :=
  .started birth.name birth.identity birth.circuit birth.request

/-- The state in which the walk begins. -/
def first (birth : Birth) : Walker where
  context := { args := birth.request.args, event := birth.request.event }

/-- The recorder with which the walk begins, if it is traced. -/
def recorder (birth : Birth) : Option Recorder := birth.request.recorder birth.settings

theorem walk_careful (birth : Birth) :
    WP Walk.Careful
      (fun result past => result.2.session = opened past ∧ ¬ Walk.JustOpened past) birth.walk [] :=
  Walk.start_careful _ _ _ _

end Birth

/-- A deed with which the invocation of that name neither begins nor asks anything nor takes
a command. -/
def Deed.Quiet (name : String) : Deed → Prop
  | .asked other _ | .started other _ _ _ | .commanded other _ => other ≠ name
  | _ => True

variable {deed : Deed} {q : Query} {deeds log : List Deed} {session : String} {birth : Birth}
  {invocation after : Invocation} {past : Past} {world world' : Surroundings} {answer : q.Answer}

theorem Deed.quiet_of_name? (other : deed.name? ≠ some name) : deed.Quiet name := by
  cases deed with
  | asked | started | commanded => exact fun same => other (congrArg some same)
  | _ => trivial

theorem Deed.Quiet.command? (quiet : deed.Quiet name) : deed.command? name = none := by
  cases deed with
  | commanded => exact if_neg quiet
  | _ => rfl

/-- The recorder has heard the questions of the walk, and so has the trace that is left behind. -/
def Heard (birth : Birth) (invocation : Invocation) (past : Past) : Standing → Prop
  | .ended => ∀ outcome, invocation.stage = .finished outcome → ∃ head now, outcome.trace =
      (recorded birth.recorder (questions past)).map (·.finalize head now outcome.fault)
  | _ => invocation.recorder = recorded birth.recorder (questions past)

/-- The invocation follows its walk, as the chronicle tells. -/
structure Follows (birth : Birth) (log : List Deed) (invocation : Invocation)
    (standing : Standing) (past : Past) (rest : Run) (yields : Bool := false) : Prop where
  name : invocation.name = birth.name
  identity : invocation.identity = birth.identity
  graph : invocation.graph = birth.circuit.id
  capability : invocation.capability = birth.request.capability
  born : birth.deed ∈ log
  once : ∀ identity circuit request, .started birth.name identity circuit request ∈ log →
    identity = birth.identity ∧ circuit = birth.circuit ∧ request = birth.request
  course : Course yields birth.walk birth.name birth.session log standing past rest
  token : invocation.cancelled = true ↔ .cancelled birth.name ∈ log
  session : invocation.session = opened past
  heard : Heard birth invocation past standing

/-- The session of an invocation is about its graph, and was stopped only with its token. -/
def Home (world : Surroundings) (invocation : Invocation) : Prop :=
  ∀ session, world.debugger.session? invocation.identity.session = some session →
    session.graph = invocation.graph ∧ (session.status = .stopped → invocation.cancelled = true)

/-- An invocation has its session if it has opened one. -/
def Lodged (world : Surroundings) (invocation : Invocation) : Prop :=
  (world.debugger.session? invocation.identity.session).isSome = invocation.session.isSome ∧
    Home world invocation

inductive Stands : Stage → Standing → Run → Prop
  | paused {session node : String} {snapshot : Value} {number : Nat} {deadline : Option Nat}
      {next : Command → Run} :
      Stands (.paused session node number deadline next) (.asking (.pause session node snapshot))
        (ask (.pause session node snapshot) next)
  | waiting {action : String} {payload : Value} {next : Except Fault Value → Run} :
      Stands (.waiting next) (.asking (.act action payload)) (ask (.act action payload) next)
  | finished {outcome : Outcome} {result : Except Fault Unit} {walker : Walker}
      (fault : ∀ fault, outcome.fault = some fault ↔ result = .error fault) :
      Stands (.finished outcome) .ended (done (result, walker))
  | refused {fault : Fault} {rest : Run} : Stands (.refused fault) .ended rest
  | dropped {rest : Run} : Stands .dropped .ended rest

theorem Stands.rests {stage : Stage} (stands : Stands stage standing rest) : standing.Rests := by
  cases stands <;> trivial

def Session.OnLine (session : Session) : Prop :=
  session.line = .waiting ∨ ∃ command, session.line = .given command

/-- The session of an invocation between moves. -/
def Seated (world : Surroundings) (invocation : Invocation) : Prop :=
  let own := world.debugger.session? invocation.identity.session
  match invocation.stage with
  | .paused session _ _ _ _ =>
    session = invocation.identity.session ∧ Lodged world invocation ∧
      ∃ found, own = some found ∧ found.OnLine
  | .waiting _ => Lodged world invocation
  | .finished _ | .refused _ => own = none
  | .dropped => (own.isSome = true → invocation.session.isSome = true) ∧ Home world invocation

/-- An invocation with the exchanges `past` of its walk behind it. It rests, unless its walk is
under way. -/
def Kept (birth : Birth) (world : Surroundings) (log : List Deed) (invocation : Invocation)
    (past : Past) (walk : Option Run := none) (yields : Bool := false) : Prop :=
  ∃ standing rest, Follows birth log invocation standing past rest yields ∧
    match walk with
    | none => Stands invocation.stage standing rest ∧ Seated world invocation
    | some run => (standing = .busy ∧ rest = run) ∧ Lodged world invocation

section home

variable {f : Session → Session}

/-- What may become of the session of an invocation and of its token. -/
structure Alters (world world' : Surroundings) (invocation : Invocation) (cancelled : Bool)
    (f : Session → Session) : Prop where
  session : world'.debugger.session? invocation.identity.session =
    (world.debugger.session? invocation.identity.session).map f
  graph : ∀ session, (f session).graph = session.graph
  grows : invocation.cancelled = true → cancelled = true
  stops : ∀ session, world.debugger.session? invocation.identity.session = some session →
    (f session).status = .stopped → session.status = .stopped ∨ cancelled = true

theorem Home.change (home : Home world invocation)
    (alters : Alters world world' invocation cancelled f) :
    Home world' { invocation with cancelled } := by
  intro session present
  rw [alters.session] at present
  obtain ⟨before, wasPresent, rfl⟩ := Option.map_eq_some_iff.mp present
  obtain ⟨about, token⟩ := home before wasPresent
  refine ⟨(alters.graph before).trans about, fun stopped => ?_⟩
  rcases alters.stops before wasPresent stopped with wasStopped | isCancelled
  · exact alters.grows (token wasStopped)
  · exact isCancelled

theorem Lodged.change (lodged : Lodged world invocation)
    (alters : Alters world world' invocation cancelled f) :
    Lodged world' { invocation with cancelled } := by
  refine ⟨?_, lodged.2.change alters⟩
  rw [alters.session, Option.isSome_map]
  exact lodged.1

end home

namespace Follows

/-- Questions are put where they may be. -/
theorem careful {next : q.Answer → Run}
    (follows : Follows birth log invocation standing past (ask q next) yields) :
    Walk.Careful q past := by
  exact (birth.walk_careful.onward follows.course.leads).1

/-- A session that was opened is the invocation's own. -/
theorem own (follows : Follows birth log invocation standing past rest yields)
    (isOpen : invocation.session = some id) : id = birth.session :=
  follows.course.session_of_opened (follows.session.symm.trans isOpen)

theorem own_of_pause
    (follows : Follows birth log invocation standing past
      (ask (.pause session node snapshot) next) yields) :
    session = birth.session :=
  follows.course.session_of_opened (follows.careful.pauses session node snapshot rfl)

/-- At its end a walk is in the session of its invocation. -/
theorem inSession
    (follows : Follows birth log invocation standing past (done (result, walker)) yields) :
    walker.session = invocation.session := by
  exact (birth.walk_careful.onward follows.course.leads).1.trans follows.session.symm

theorem asks {next : q.Answer → Run}
    (follows : Follows birth log invocation .busy past (ask q next) yields) :
    Follows birth (.asked invocation.name q :: log) invocation (.asking q) past
      (ask q next) yields := by
  refine { follows with
    born := mem_cons_of_mem _ follows.born
    once := fun identity circuit request member => ?_
    course := ?_
    token := by simpa using follows.token }
  · cases member with
    | tail _ member => exact follows.once identity circuit request member
  · rw [follows.name]
    exact .asks follows.course

section

variable (follows : Follows birth log invocation standing past rest yields)
include follows

/-- What happens meanwhile, to the token among other things. -/
theorem besides (isOpen : standing.Open yields) (quiet : ∀ deed ∈ deeds, deed.Quiet birth.name)
    (token : cancelled = true ↔ .cancelled birth.name ∈ deeds ++ log) :
    Follows birth (deeds ++ log) { invocation with cancelled } standing past rest yields := by
  refine { follows with
    born := mem_append_right _ follows.born
    once := fun identity circuit request member => ?_
    course := follows.course.besides isOpen (fun q member => absurd rfl (quiet _ member))
      fun deed member => (quiet deed member).command?
    token }
  rcases mem_append.mp member with member | member
  · exact absurd rfl (quiet _ member)
  · exact follows.once identity circuit request member

/-- What happens elsewhere. -/
theorem elsewhere (isOpen : standing.Open yields)
    (others : ∀ deed ∈ deeds, deed.name? ≠ some birth.name) :
    Follows birth (deeds ++ log) invocation standing past rest yields := by
  refine follows.besides isOpen (fun deed member => Deed.quiet_of_name? (others deed member)) ?_
  rw [follows.token, mem_append]
  exact ⟨.inr, fun member => member.resolve_left fun other => others _ other rfl⟩

end

theorem hears {next : q.Answer → Run}
    (follows : Follows birth log invocation (.asking q) past (ask q next) yields)
    (fits : Fits birth.name birth.session log q answer) (speaks : ¬ q.Pauses)
    (session : invocation.session = opened (⟨q, answer⟩ :: past))
    (heard : Heard birth invocation (⟨q, answer⟩ :: past) .busy) :
    Follows birth log invocation .busy (⟨q, answer⟩ :: past) (next answer) yields :=
  { follows with course := .hears follows.course fits speaks, session, heard }

/-- Only what the walk does not depend on may change. -/
theorem update (follows : Follows birth log invocation standing past rest yields)
    (name : after.name = invocation.name) (identity : after.identity = invocation.identity)
    (graph : after.graph = invocation.graph) (capability : after.capability = invocation.capability)
    (cancelled : after.cancelled = invocation.cancelled)
    (session : after.session = invocation.session) (heard : Heard birth after past standing) :
    Follows birth log after standing past rest yields :=
  { follows with
    name := name.trans follows.name
    identity := identity.trans follows.identity
    graph := graph.trans follows.graph
    capability := capability.trans follows.capability
    token := cancelled ▸ follows.token
    session := session.trans follows.session
    heard }

end Follows

namespace Invocation

theorem name?_of_report {news : Session → News} (member : deed ∈ debugger.report id news) :
    deed.name? = none := by
  rw [Debugger.report] at member
  split at member
  · rw [mem_singleton.mp member]
    rfl
  · cases member

/-- What goes on record at the end of a walk is about nobody. -/
theorem name?_of_record_done
    (member : deed ∈ invocation.record world (done (result, walker))) :
    deed.name? = none := by
  rw [record] at member
  split at member
  · exact name?_of_report member
  · cases member

/-- What goes on record besides questions is no question and no beginning. -/
inductive Aside (name : String) : Deed → Prop
  | commanded (command : Command) : Aside name (.commanded name command)
  | answered (answer : Except Fault Value) : Aside name (.answered name answer)
  | cancelled : Aside name (.cancelled name)
  | report {deed : Deed} (nobody : deed.name? = none) : Aside name deed

theorem Aside.still (aside : Aside name deed) :
    (∀ q, deed ≠ .asked other q) ∧
      ∀ identity circuit request, deed ≠ .started other identity circuit request := by
  cases aside with
  | report nobody =>
    constructor
    · rintro q rfl
      cases nobody
    · rintro identity circuit request rfl
      cases nobody
  | _ => exact ⟨by simp, by simp⟩

theorem askedBy_of_asides (asides : ∀ deed ∈ deeds, Aside name deed) : askedBy other deeds = [] :=
  eq_nil_iff_forall_not_mem.mpr fun q member =>
    absurd rfl ((asides _ (mem_askedBy.mp member)).still.1 q)

theorem Aside.name? (aside : Aside name deed) : deed.name? = some name ∨ deed.name? = none := by
  cases aside with
  | report nobody => exact .inr nobody
  | _ => exact .inl rfl

theorem aside_of_expiry (member : deed ∈ invocation.expiry world session node) :
    Aside invocation.name deed := by
  rcases mem_cons.mp member with rfl | member
  · exact .commanded .stop
  · rcases mem_cons.mp member with rfl | member
    · exact .cancelled
    · split at member
      · exact .report (name?_of_report member)
      · cases member

theorem cancelled_mem_expiry (invocation : Invocation) :
    .cancelled invocation.name ∈ invocation.expiry world session node :=
  mem_cons_of_mem _ mem_cons_self

theorem commandsTo_of_nobody (nobody : ∀ deed ∈ deeds, deed.name? = none) :
    commandsTo name deeds = [] := by
  refine filterMap_eq_nil_iff.mpr fun deed member => ?_
  cases deed with
  | commanded => cases nobody _ member
  | _ => rfl

theorem commandsTo_expiry :
    commandsTo invocation.name (invocation.expiry world session node) = [.stop] := by
  refine (commandsTo_commanded _ _ _).trans ?_
  split
  · change _ :: commandsTo _ (world.debugger.report session _) = _
    rw [commandsTo_of_nobody fun _ => name?_of_report]
  · rfl

theorem commandsTo_obedience (command : Command) :
    commandsTo invocation.name (invocation.obedience command) = [command] := by
  cases command with
  | resume | stop => exact commandsTo_commanded _ _ _

theorem aside_of_obedience (member : deed ∈ invocation.obedience command) :
    Aside invocation.name deed := by
  cases command with
  | resume =>
    rw [mem_singleton.mp member]
    exact .commanded _
  | stop =>
    rcases mem_cons.mp member with rfl | member
    · exact .cancelled
    · rw [mem_singleton.mp member]
      exact .commanded _

theorem Replies.aside (reply : Replies invocation world q answer after world' deeds)
    (member : deed ∈ deeds) : Aside invocation.name deed := by
  cases reply with
  | refused =>
    rw [mem_singleton.mp member]
    exact .commanded _
  | impatient =>
    rcases mem_append.mp member with member | member
    · exact aside_of_expiry member
    · exact .report (name?_of_report member)
  | _ => cases member

theorem Waits.aside {next : q.Answer → Run}
    (wait : Waits invocation world q next after world' deeds) (member : deed ∈ deeds) :
    deed.name? = none := by
  cases wait with
  | pauses => exact name?_of_report member
  | _ => cases member

theorem Prompted.aside (prompted : Prompted invocation world after world' rest deeds)
    (member : deed ∈ deeds) : Aside invocation.name deed := by
  cases prompted with
  | command => exact aside_of_obedience member
  | expired => exact aside_of_expiry member
  | answer =>
    rw [mem_singleton.mp member]
    exact .answered _

end Invocation

namespace Follows

/-- A pause ends with a command, which may cancel the token. -/
theorem obeys
    (follows : Follows birth log invocation (.asking (.pause id node snapshot)) past
      (ask (.pause id node snapshot) next) yields)
    (asides : ∀ deed ∈ deeds, Aside invocation.name deed)
    (taken : commandsTo invocation.name deeds = [command])
    (bare : ∀ overrides, command = .resume overrides → deeds = [.commanded invocation.name command])
    (token : cancelled = true ↔ .cancelled birth.name ∈ deeds ++ log) :
    Follows birth (deeds ++ log) { invocation with cancelled } .busy
      (⟨.pause id node snapshot, command⟩ :: past) (next command) yields := by
  rw [follows.name] at taken bare
  refine { follows with
    born := mem_append_right _ follows.born
    once := fun identity circuit request member => ?_
    course := .obeys follows.course (askedBy_of_asides asides) taken bare
    token }
  rcases mem_append.mp member with member | member
  · exact absurd rfl ((asides _ member).still.2 identity circuit request)
  · exact follows.once identity circuit request member

/-- A question is answered at once. -/
theorem reply {next : q.Answer → Run}
    (follows : Follows birth log invocation .busy past (ask q next) yields)
    (reply : Replies invocation world q answer after world' deeds) :
    Follows birth (deeds ++ .asked invocation.name q :: log) after .busy (⟨q, answer⟩ :: past)
      (next answer) yields := by
  have asked := follows.asks
  have session := follows.session
  have asides : ∀ deed ∈ deeds, Aside invocation.name deed := fun _ => reply.aside
  cases reply with
  | token => exact asked.hears asked.token id session follows.heard
  | visit | ticket => exact asked.hears trivial id session follows.heard
  | opens =>
    have fits : Fits birth.name birth.session (.asked invocation.name .openSession :: log)
        .openSession invocation.identity.session := congrArg Identity.session follows.identity
    exact { asked with course := .hears asked.course fits id, session := rfl }
  | refused =>
    exact asked.obeys asides (commandsTo_commanded _ _ _) nofun (by simpa using follows.token)
  | impatient =>
    refine asked.obeys asides ?_ nofun ⟨fun _ => ?_, fun _ => rfl⟩
    · rw [commandsTo_append, commandsTo_expiry, pausing,
        commandsTo_of_nobody fun _ => name?_of_report]
      rfl
    · refine mem_append_left _ (mem_append_left _ ?_)
      exact follows.name ▸ invocation.cancelled_mem_expiry
  | acts =>
    rw [invocation.noteCall_eq]
    exact (asked.hears trivial id session follows.heard).update rfl rfl rfl rfl rfl rfl
      follows.heard
  | announce =>
    exact { asked with
      course := .hears asked.course trivial id
      heard := congrArg (Option.map _) follows.heard }

/-- An invocation is dropped on a question that has to wait. -/
theorem drops (follows : Follows birth log invocation (.asking q) past rest yields)
    (waits : q.MayWait) :
    Follows birth log { invocation with stage := .dropped } .ended past rest yields :=
  { follows with
    course := .drops follows.course waits
    heard := fun _ same => absurd same Stage.noConfusion }

/-- A question has to wait. -/
theorem waits {next : q.Answer → Run}
    (follows : Follows birth log invocation .busy past (ask q next) yields)
    (wait : Waits invocation world q next after world' deeds) :
    ∃ standing, Stands after.stage standing (ask q next) ∧
      Follows birth (deeds ++ .asked invocation.name q :: log) after standing past
        (ask q next) yields := by
  have asked := follows.asks
  have others : ∀ deed ∈ deeds, deed.name? ≠ some birth.name := fun _ member same => by
    cases (wait.aside member).symm.trans same
  cases wait with
  | pauses =>
    exact ⟨_, .paused, (asked.elsewhere (Standing.Rests.isOpen trivial) others).update
      rfl rfl rfl rfl rfl rfl follows.heard⟩
  | acts =>
    rw [invocation.noteCall_eq]
    exact ⟨_, .waiting, asked.update rfl rfl rfl rfl rfl rfl follows.heard⟩
  | exhausted => exact ⟨_, .dropped, asked.drops trivial⟩

/-- A paused invocation goes on with a command. -/
theorem commanded
    (follows : Follows birth log invocation (.asking (.pause session node snapshot)) past
      (ask (.pause session node snapshot) next) yields) (command : Command) :
    Follows birth (invocation.obedience command ++ log) (invocation.obeying command) .busy
      (⟨.pause session node snapshot, command⟩ :: past) (next command) yields := by
  refine follows.obeys (fun _ => aside_of_obedience)
    (commandsTo_obedience command) ?_ ?_
  · rintro overrides rfl
    rfl
  · cases command with
    | resume => simpa [obedience] using follows.token
    | stop =>
      refine ⟨fun _ => mem_append_left _ ?_, fun _ => rfl⟩
      exact follows.name ▸ mem_cons_self

/-- An invocation goes on with the answer to the question it rests on. -/
theorem prompted {stood : Run} (follows : Follows birth log invocation standing past stood yields)
    (stands : Stands invocation.stage standing stood)
    (prompted : Prompted invocation world after world' rest deeds) :
    ∃ (q : Query) (answer : q.Answer), standing = .asking q ∧
      Follows birth (deeds ++ log) after .busy (⟨q, answer⟩ :: past) rest yields := by
  cases prompted with
  | @command _ _ _ _ _ command paused =>
    rw [paused] at stands
    obtain @⟨_, _, snapshot⟩ := stands
    exact ⟨.pause _ _ snapshot, command, rfl, follows.commanded command⟩
  | expired paused =>
    rw [paused] at stands
    obtain @⟨_, _, snapshot⟩ := stands
    refine ⟨.pause _ _ snapshot, Command.stop, rfl, ?_⟩
    refine follows.obeys (fun _ => aside_of_expiry) commandsTo_expiry nofun
      ⟨fun _ => mem_append_left _ ?_, fun _ => rfl⟩
    exact follows.name ▸ invocation.cancelled_mem_expiry
  | @answer next answer waiting =>
    have isOpen : standing.Open yields := stands.rests.isOpen
    rw [waiting] at stands
    cases stands with
    | @waiting action payload =>
      have quiet : ∀ deed ∈ [Deed.answered invocation.name answer], deed.Quiet birth.name :=
        forall_mem_singleton.mpr trivial
      have beside := follows.besides isOpen quiet (by simpa using follows.token)
      exact ⟨.act action payload, answer, rfl,
        (beside.hears trivial id follows.session follows.heard).update rfl rfl rfl rfl rfl rfl
          follows.heard⟩

end Follows

namespace Invocation

/-- The question asks for no pause but one in the invocation's own session. -/
abbrev AsksOwn (invocation : Invocation) (q : Query) : Prop :=
  ∀ session node snapshot, q = .pause session node snapshot →
    session = invocation.identity.session

theorem Replies.apart (reply : Replies invocation world q answer after world' deeds)
    (own : invocation.AsksOwn q)
    (fresh : q = .openSession →
      world.debugger.session? invocation.identity.session = none) :
    world.Apart invocation.identity.session world' := by
  cases reply with
  | visit =>
    exact ⟨fun _ _ => rfl, Breakpoints.bare_visit _ _ _ _, rfl, rfl, rfl, id⟩
  | opens =>
    refine ⟨fun other apart => ?_, rfl, rfl, rfl, rfl, Debugger.nodup_openSession (fresh rfl)⟩
    refine (world.debugger.session?_openSession _).trans ?_
    rw [if_neg (Ne.symm apart), Option.or_none]
  | @impatient session node snapshot debugger begun =>
    cases own session node snapshot rfl
    exact (world.debugger.amended_beginPause begun).apart.trans
      (debugger.amended_expire node).apart
  | ticket => exact ⟨fun _ _ => rfl, rfl, rfl, rfl, rfl, id⟩
  | _ => exact .refl world

theorem Replies.lodged (reply : Replies invocation world q answer after world' deeds)
    (own : invocation.AsksOwn q) (lodged : Lodged world invocation) : Lodged world' after := by
  cases reply with
  | opens =>
    have opens := @Debugger.session?_openSession world.debugger invocation.identity.session
      { id := invocation.identity.session, graph := invocation.graph,
        invocation := invocation.identity.invocation }
    rw [if_pos rfl] at opens
    refine ⟨?_, fun session present => ?_⟩
    · exact (congrArg Option.isSome opens).trans (by simp [openSession])
    · rcases Option.or_eq_some_iff.mp (opens.symm.trans present) with old | ⟨-, new⟩
      · exact lodged.2 session old
      · cases new
        exact ⟨rfl, nofun⟩
  | @impatient session node snapshot debugger begun =>
    cases own session node snapshot rfl
    refine lodged.change (f := fun session => (session.pause node snapshot).proceed .stop)
      ⟨(debugger.amended_expire node).own.trans ?_, fun _ => rfl, fun _ => rfl,
        fun _ _ _ => .inr rfl⟩
    rw [(world.debugger.amended_beginPause begun).own, Option.map_map]
    rfl
  | acts =>
    rw [invocation.noteCall_eq]
    exact lodged
  | _ => exact lodged

theorem Waits.apart {next : q.Answer → Run}
    (wait : Waits invocation world q next after world' deeds)
    (own : invocation.AsksOwn q) : world.Apart invocation.identity.session world' := by
  cases wait with
  | @pauses session node snapshot debugger next begun =>
    cases own session node snapshot rfl
    exact (world.debugger.amended_beginPause begun).apart.trans
      ⟨fun _ _ => rfl, rfl, rfl, rfl, rfl, id⟩
  | _ => exact .refl world

theorem Waits.seated {next : q.Answer → Run}
    (wait : Waits invocation world q next after world' deeds) (lodged : Lodged world invocation)
    (own : invocation.AsksOwn q) : Seated world' after := by
  cases wait with
  | @pauses session node snapshot debugger next begun =>
    cases own session node snapshot rfl
    have amended := world.debugger.amended_beginPause begun
    obtain ⟨found, present, -⟩ := world.debugger.beginPause_eq_some begun
    have paused : Lodged { world with debugger } invocation :=
      lodged.change ⟨amended.own, fun _ => rfl, id, fun _ _ => nofun⟩
    exact ⟨rfl, paused, found.pause node snapshot,
      amended.session?_of_some present, .inl rfl⟩
  | acts =>
    rw [invocation.noteCall_eq]
    exact lodged
  | exhausted => exact ⟨fun isOpen => lodged.1 ▸ isOpen, lodged.2⟩

theorem published_of_report {news : Session → News}
    (member : .published event ∈ debugger.report id news) : event.session = id := by
  rw [Debugger.report] at member
  split at member
  · cases mem_singleton.mp member
    rfl
  · cases member

theorem published_of_expiry (member : .published event ∈ invocation.expiry world session node) :
    event.session = session := by
  have member := (mem_cons.mp member).resolve_left (by simp)
  have member := (mem_cons.mp member).resolve_left (by simp)
  split at member
  · exact published_of_report member
  · cases member

theorem Replies.published {answer : q.Answer}
    (reply : Replies invocation world q answer after world' deeds)
    (own : invocation.AsksOwn q) (member : .published event ∈ deeds) :
    event.session = invocation.identity.session := by
  cases reply with
  | refused => cases mem_singleton.mp member
  | @impatient session node snapshot =>
    rw [← own session node snapshot rfl]
    rcases mem_append.mp member with member | member
    · exact published_of_expiry member
    · exact published_of_report member
  | _ => cases member

theorem Waits.published {next : q.Answer → Run}
    (wait : Waits invocation world q next after world' deeds)
    (own : invocation.AsksOwn q) (member : .published event ∈ deeds) :
    event.session = invocation.identity.session := by
  cases wait with
  | @pauses session node snapshot =>
    rw [← own session node snapshot rfl]
    exact published_of_report member
  | _ => cases member

theorem Prompted.published (prompted : Prompted invocation world after world' rest deeds)
    (seated : Seated world invocation) (member : .published event ∈ deeds) :
    event.session = invocation.identity.session := by
  rw [Seated] at seated
  cases prompted with
  | @command session node number deadline next command =>
    cases command with
    | resume => cases mem_singleton.mp member
    | stop =>
      rcases mem_cons.mp member with same | member
      · cases same
      · cases mem_singleton.mp member
  | expired paused =>
    simp only [paused] at seated
    exact (published_of_expiry member).trans seated.1
  | answer => cases mem_singleton.mp member

/-- An invocation that goes on has its session, and has touched no other. -/
theorem Prompted.lodged (prompted : Prompted invocation world after world' rest deeds)
    (seated : Seated world invocation) :
    Lodged world' after ∧ world.Apart invocation.identity.session world' := by
  rw [Seated] at seated
  cases prompted with
  | @command _ _ _ _ _ command paused =>
    simp only [paused] at seated
    obtain ⟨rfl, lodged, -⟩ := seated
    have amended := @Debugger.amended_endPause world.debugger invocation.identity.session command
    refine ⟨lodged.change ⟨amended.own, fun _ => rfl, ?_, ?_⟩, amended.apart⟩
    · cases command with
      | resume => exact id
      | stop => exact fun _ => rfl
    · cases command with
      | resume => exact fun _ _ => nofun
      | stop => exact fun _ _ _ => .inr rfl
  | @expired _ node _ _ _ paused =>
    simp only [paused] at seated
    obtain ⟨rfl, lodged, -⟩ := seated
    have amended := @Debugger.amended_expire world.debugger invocation.identity.session node
    exact ⟨lodged.change ⟨amended.own, fun _ => rfl, fun _ => rfl, fun _ _ _ => .inr rfl⟩,
      amended.apart⟩
  | answer waiting =>
    simp only [waiting] at seated
    exact ⟨seated, .refl world⟩

end Invocation

def Debugger.closing (debugger : Debugger) (session : Option String)
    (result : Except Fault Unit) : Debugger :=
  match session with
  | some session => debugger.closeSession session result
  | none => debugger

theorem Debugger.closing_eq (debugger : Debugger) (session : Option String)
    (result : Except Fault Unit) :
    ∃ channel sessions, sessions.Sublist debugger.sessions ∧
      debugger.closing session result = { debugger with channel, sessions } := by
  cases session with
  | none => exact ⟨_, _, .refl _, rfl⟩
  | some =>
    rw [closing, closeSession]
    split
    · exact ⟨_, _, .refl _, rfl⟩
    · exact ⟨_, _, filter_sublist, rfl⟩

namespace Invocation

/-- What an invocation leaves behind when its walk has ended. -/
def outcome (invocation : Invocation) (now : Instant) (result : Except Fault Unit)
    (walker : Walker) : Outcome :=
  let fault := match result with
    | .ok () => none
    | .error fault => some fault
  { fault
    trace := invocation.recorder.map fun recorder =>
      recorder.finalize invocation.traceHead now fault
    vars := walker.context.vars
    intents := walker.context.intents
    lines := walker.context.lines }

theorem outcome_fault_eq_some {now : Instant} {fault : Fault} :
    (invocation.outcome now result walker).fault = some fault ↔ result = .error fault := by
  cases result with
  | ok => exact ⟨nofun, nofun⟩
  | error =>
    constructor
    · intro same
      rw [Option.some.inj same]
    · intro same
      rw [Except.error.inj same]
      rfl

theorem keep_eq (world : Surroundings) (trace : Trace) :
    ∃ archive, world.keep trace = { world with archive } := by
  rw [Surroundings.keep]
  split
  · exact ⟨_, rfl⟩
  · exact ⟨_, rfl⟩

theorem finish_eq (invocation : Invocation) (world : Surroundings) (result : Except Fault Unit)
    (walker : Walker) :
    ∃ archive, invocation.finish world result walker =
      ({ invocation with
          recorder := none
          stage := .finished (invocation.outcome world.now result walker) },
        { world with archive, debugger := world.debugger.closing walker.session result }) := by
  simp only [finish, outcome]
  cases walker.session <;> cases invocation.recorder
  case none.none | some.none => exact ⟨_, rfl⟩
  all_goals exact (keep_eq _ _).imp fun _ kept => Prod.ext rfl kept

/-- Closing a session changes no other. -/
theorem apart_of_closing (world : Surroundings) {session : Option String}
    (result : Except Fault Unit) (archive : Archive)
    (own : ∀ other, session = some other → other = id) :
    world.Apart id { world with archive, debugger := world.debugger.closing session result } := by
  cases session with
  | none => exact ⟨fun _ _ => rfl, rfl, rfl, rfl, rfl, fun nodup => nodup⟩
  | some session =>
    cases own session rfl
    obtain ⟨_, _, fewer, closed⟩ := world.debugger.closing_eq (some id) result
    refine ⟨fun other apart => ?_, by rw [closed], by rw [closed], rfl, rfl, fun nodup => ?_⟩
    · exact (world.debugger.session?_closeSession result).trans (if_neg apart)
    · rw [closed]
      exact nodup.sublist (fewer.map Session.id)

end Invocation

/-- The deed is about the invocation or about nobody, and an event is about its session. -/
def Birth.Owns (birth : Birth) (deed : Deed) : Prop :=
  (deed.name? = some birth.name ∨ deed.name? = none) ∧
    ∀ event, deed = .published event → event.session = birth.session

/-- What one invocation has done since: its course has grown, the surroundings have changed
for nobody else, and what went on record is about nobody else. -/
structure Since (birth : Birth) (past₀ : Past) (world₀ : Surroundings) (log₀ : List Deed)
    (past : Past) (world : Surroundings) (log : List Deed) : Prop where
  grows : past₀ <:+ past
  apart : world₀.Apart birth.session world
  record : ∃ deeds, log = deeds ++ log₀ ∧ ∀ deed ∈ deeds, birth.Owns deed

namespace Since

variable {past₀ : Past} {world₀ : Surroundings} {log₀ : List Deed}

theorem refl (birth : Birth) (past : Past) (world : Surroundings) (log : List Deed) :
    Since birth past world log past world log :=
  ⟨suffix_rfl, .refl world, [], rfl, forall_mem_nil _⟩

theorem trans {past' : Past} {log' : List Deed}
    (first : Since birth past₀ world₀ log₀ past world log)
    (second : Since birth past world log past' world' log') :
    Since birth past₀ world₀ log₀ past' world' log' where
  grows := first.grows.trans second.grows
  apart := first.apart.trans second.apart
  record := by
    obtain ⟨deeds, rfl, own⟩ := first.record
    obtain ⟨more, rfl, alsoOwn⟩ := second.record
    exact ⟨more ++ deeds, (append_assoc _ _ _).symm,
      forall_mem_append.mpr ⟨alsoOwn, own⟩⟩

/-- A question, and what went on record with it. -/
theorem record_asked (same : name = birth.name) (own : ∀ deed ∈ deeds, birth.Owns deed) :
    ∃ new, deeds ++ .asked name q :: log = new ++ log ∧ ∀ deed ∈ new, birth.Owns deed := by
  subst same
  exact ⟨deeds ++ [.asked birth.name q], append_cons _ _ _,
    forall_mem_append.mpr ⟨own, forall_mem_singleton.mpr ⟨.inl rfl, nofun⟩⟩⟩

/-- What has been put on record. -/
theorem own (since : Since birth past₀ world₀ log₀ past world (deeds ++ log₀)) :
    ∀ deed ∈ deeds, birth.Owns deed := by
  obtain ⟨new, same, own⟩ := since.record
  rw [append_cancel_right same]
  exact own

end Since

/-- An invocation has gone on, and is kept on its course. -/
def Further (birth : Birth) (past₀ : Past) (world₀ : Surroundings) (log₀ : List Deed)
    (invocation : Invocation) (world : Surroundings) (log : List Deed)
    (walk : Option Run := none) (yields : Bool := false) : Prop :=
  ∃ past, Kept birth world log invocation past walk yields ∧
    Since birth past₀ world₀ log₀ past world log

namespace Follows

theorem session_eq (follows : Follows birth log invocation standing past rest yields) :
    invocation.identity.session = birth.session := congrArg Identity.session follows.identity

theorem pause_own {next : q.Answer → Run}
    (follows : Follows birth log invocation standing past (ask q next) yields) :
    invocation.AsksOwn q := by
  rintro session node snapshot rfl
  rw [follows.identity]
  exact follows.own_of_pause

end Follows

namespace Kept

/-- An invocation hears the answer to its question. -/
theorem reply {next : q.Answer → Run}
    (kept : Kept birth world log invocation past (some (ask q next)) yields)
    (reply : Replies invocation world q answer after world' deeds) :
    Further birth past world log after world' (deeds ++ .asked invocation.name q :: log)
      (some (next answer)) yields := by
  obtain ⟨_, _, follows, ⟨rfl, rfl⟩, lodged⟩ := kept
  refine ⟨⟨q, answer⟩ :: past, ⟨.busy, next answer, follows.reply reply, ⟨rfl, rfl⟩,
    reply.lodged follows.pause_own lodged⟩, suffix_cons _ _, ?_, ?_⟩
  · refine follows.session_eq ▸ reply.apart follows.pause_own fun opens => ?_
    rw [← Option.not_isSome_iff_eq_none, lodged.1, follows.session, follows.careful.opens opens]
    exact Bool.false_ne_true
  · refine Since.record_asked follows.name fun deed member => ⟨?_, ?_⟩
    · exact follows.name ▸ (reply.aside member).name?
    · rintro event rfl
      exact (reply.published follows.pause_own member).trans follows.session_eq

/-- The question of an invocation has to wait. -/
theorem waits {next : q.Answer → Run}
    (kept : Kept birth world log invocation past (some (ask q next)) yields)
    (wait : Waits invocation world q next after world' deeds) :
    Further birth past world log after world' (deeds ++ .asked invocation.name q :: log) none
      yields := by
  obtain ⟨_, _, follows, ⟨rfl, rfl⟩, lodged⟩ := kept
  obtain ⟨standing, stands, rests⟩ := follows.waits wait
  refine ⟨past, ⟨standing, _, rests, stands, wait.seated lodged follows.pause_own⟩,
    suffix_rfl, ?_, ?_⟩
  · exact follows.session_eq ▸ wait.apart follows.pause_own
  · refine Since.record_asked follows.name fun deed member => ⟨.inr (wait.aside member), ?_⟩
    rintro event rfl
    exact (wait.published follows.pause_own member).trans follows.session_eq

/-- The walk of an invocation has ended. -/
theorem ends (kept : Kept birth world log invocation past (some (done (result, walker))) yields) :
    let left := invocation.finish world result walker
    Further birth past world log left.1 left.2
      (invocation.record world (done (result, walker)) ++ log) none yields := by
  intro left
  obtain ⟨_, _, follows, ⟨rfl, rfl⟩, lodged⟩ := kept
  obtain ⟨archive, finished⟩ := invocation.finish_eq world result walker
  have nobody : ∀ deed ∈ invocation.record world (done (result, walker)), deed.name? = none :=
    fun _ => name?_of_record_done
  have ended : Follows birth log (invocation.finish world result walker).1 .ended past
      (done (result, walker)) yields := by
    rw [finished]
    refine { follows with course := .ends follows.course (.inr ⟨_, rfl⟩), heard := ?_ }
    rintro outcome same
    cases same
    exact ⟨invocation.traceHead, world.now, congrArg (Option.map _) follows.heard⟩
  have others : ∀ deed ∈ invocation.record world (done (result, walker)),
      deed.name? ≠ some birth.name := fun _ member same => by
    cases (nobody _ member).symm.trans same
  have isOver := ended.elsewhere (Standing.Rests.isOpen trivial) others
  -- The session is closed if there is one.
  have gone : (world.debugger.closing invocation.session result).session?
      invocation.identity.session = none := by
    cases same : invocation.session with
    | none =>
      have none := lodged.1
      rw [same] at none
      exact Option.isSome_eq_false_iff.mp none |> Option.isNone_iff_eq_none.mp
    | some session =>
      have own : session = invocation.identity.session :=
        (follows.own same).trans follows.session_eq.symm
      exact (world.debugger.session?_closeSession result).trans (if_pos own.symm)
  rw [finished] at isOver
  simp only [left, finished]
  rw [follows.inSession]
  refine ⟨past, ⟨.ended, _, isOver, .finished fun _ => outcome_fault_eq_some, gone⟩, suffix_rfl,
    apart_of_closing world result archive fun _ => follows.own, _, rfl,
    fun deed member => ⟨.inr (nobody deed member), ?_⟩⟩
  rintro event rfl
  rw [record, follows.inSession] at member
  split at member
  · exact (published_of_report member).trans (follows.own (by assumption))
  · cases member

/-- An invocation that rests goes on. -/
theorem prompted (kept : Kept birth world log invocation past none yields)
    (prompted : Prompted invocation world after world' rest deeds) :
    Further birth past world log after world' (deeds ++ log) (some rest) yields := by
  obtain ⟨standing, stood, follows, stands, seated⟩ := kept
  obtain ⟨q, answer, -, going⟩ := follows.prompted stands prompted
  obtain ⟨lodged, apart⟩ := prompted.lodged seated
  refine ⟨⟨q, answer⟩ :: past, ⟨.busy, rest, going, ⟨rfl, rfl⟩, lodged⟩, suffix_cons _ _,
    follows.session_eq ▸ apart, deeds, rfl,
    fun deed member => ⟨follows.name ▸ (prompted.aside member).name?, fun event isEvent => ?_⟩⟩
  subst isEvent
  exact (prompted.published seated member).trans follows.session_eq

end Kept

/-- A further step. -/
theorem Further.andThen {past₀ : Past} {world₀ : Surroundings} {log₀ log' : List Deed}
    {walk walk' : Option Run}
    (further : Further birth past₀ world₀ log₀ invocation world log walk yields)
    (step : ∀ past, Kept birth world log invocation past walk yields →
      Further birth past world log after world' log' walk' yields) :
    Further birth past₀ world₀ log₀ after world' log' walk' yields := by
  obtain ⟨past, kept, since⟩ := further
  obtain ⟨past', kept', since'⟩ := step past kept
  exact ⟨past', kept', since.trans since'⟩

/-- A drive leaves the invocation at rest, further on its course, and nobody else touched. -/
theorem Kept.drive (kept : Kept birth world log invocation past (some rest) yields) :
    Further birth past world log (invocation.drive world rest).1 (invocation.drive world rest).2
      (invocation.record world rest ++ log) none yields := by
  refine drive_rule
    (fun going world' run log' => Further birth past world log going world' log' (some run) yields)
    (fun left world' log' => Further birth past world log left world' log' none yields) ?_ ?_ ?_
    ⟨past, kept, .refl birth past world log⟩
  · exact fun further reply => further.andThen fun _ kept => kept.reply reply
  · exact fun further wait => further.andThen fun _ kept => kept.waits wait
  · exact fun further => further.andThen fun _ kept => kept.ends

end Pinflow
