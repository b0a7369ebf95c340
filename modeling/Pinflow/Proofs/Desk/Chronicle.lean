import Pinflow.Proofs.Desk.Moves

/-!
# The chronicle of a play

What becomes known while moves are made at a desk, put on record in its order: questions
that walks put, commands and answers that they take, cancellations, and events. `record`
runs along `Invocation.drive` and notes what that does. It takes no part in what happens.

Two rules carry every proof about plays. `Invocation.drive_rule` takes a drive apart into
the replies to single questions, and `Desk.play_rule` a play into moves.
-/

namespace Pinflow

open Dialogue

variable {invocation : Invocation} {desk : Desk} {world : Surroundings} {log : List Deed}

/-- Something that goes on record. -/
inductive Deed where
  /-- An invocation was started. -/
  | started (name : String) (identity : Identity) (circuit : Circuit) (request : Request)
  /-- The walk of an invocation put a question. -/
  | asked (name : String) (query : Query)
  /-- A pause of an invocation ended with a command. -/
  | commanded (name : String) (command : Command)
  /-- An action of an invocation that had to wait got its answer. -/
  | answered (name : String) (answer : Except Fault Value)
  /-- The token of an invocation was cancelled. -/
  | cancelled (name : String)
  /-- An event was published. -/
  | published (event : Event)
  /-- Somebody did something to the channel. -/
  | watched (change : Channel → Channel)

def Deed.name? : Deed → Option String
  | .started name _ _ _ | .asked name _ | .commanded name _ | .answered name _ | .cancelled name =>
    some name
  | .published _ | .watched _ => none

def Debugger.report (debugger : Debugger) (id : String) (news : Session → News) : List Deed :=
  match debugger.session? id with
  | some session => [.published ⟨id, session.graph, news session⟩]
  | none => []

namespace Invocation

/-- What goes on record when a pause has lasted too long. -/
def expiry (invocation : Invocation) (world : Surroundings) (session node : String) : List Deed :=
  .commanded invocation.name .stop :: .cancelled invocation.name ::
    match world.debugger.patience with
    | some patience => world.debugger.report session fun _ =>
        .error (s!"paused at {node} for longer than " ++ Debugger.durationText patience)
    | none => []

def pausing (world : Surroundings) (session node : String) (snapshot : Value) : List Deed :=
  world.debugger.report session fun session => .paused session.invocation node snapshot

/-- The record of a drive, latest first. -/
def record (invocation : Invocation) (world : Surroundings) : Run → List Deed
  | done (result, walker) =>
    match walker.session with
    | some session => world.debugger.report session fun _ => Debugger.closingNews result
    | none => []
  | ask .isCancelled next =>
    invocation.record world (next invocation.cancelled) ++ [.asked invocation.name .isCancelled]
  | ask (.visit node vars) next =>
    let (hit, debugger) := world.debugger.visit invocation.graph node vars
    invocation.record { world with debugger } (next hit) ++
      [.asked invocation.name (.visit node vars)]
  | ask .openSession next =>
    let (opened, world) := invocation.openSession world
    opened.record world (next opened.identity.session) ++ [.asked invocation.name .openSession]
  | ask (.pause session node snapshot) next =>
    let asked : Deed := .asked invocation.name (.pause session node snapshot)
    match world.debugger.beginPause session node snapshot with
    | none => invocation.record world (next .stop) ++ [.commanded invocation.name .stop, asked]
    | some debugger =>
      let paused := pausing world session node snapshot ++ [asked]
      let world := { world with debugger }
      if debugger.patience = some 0 then
        let (expired, after) := invocation.expire world session node
        expired.record after (next .stop) ++ (invocation.expiry world session node ++ paused)
      else paused
  | ask (.act action payload) next =>
    let asked : Deed := .asked invocation.name (.act action payload)
    let invocation := invocation.noteCall action payload
    match invocation.capability.reply action payload with
    | .now answer => invocation.record world (next answer) ++ [asked]
    | .later => [asked]
  | ask .ticket next =>
    let drawn := world.drawn + 1
    invocation.record { world with drawn } (next drawn) ++ [.asked invocation.name .ticket]
  | ask (.announce moment) next =>
    let recorder := invocation.recorder.map (·.observe moment)
    { invocation with recorder }.record world (next ()) ++
      [.asked invocation.name (.announce moment)]
  | ask .exhausted _ => [.asked invocation.name .exhausted]

/-- A question that is answered at once: its answer, what that leaves behind, and what
goes on record besides the question. -/
inductive Replies (invocation : Invocation) (world : Surroundings) :
    (q : Query) → q.Answer → Invocation → Surroundings → List Deed → Prop
  | token : Replies invocation world .isCancelled invocation.cancelled invocation world []
  | visit (node : String) (vars : Fields) :
      Replies invocation world (.visit node vars)
        (world.debugger.visit invocation.graph node vars).1 invocation
        { world with debugger := (world.debugger.visit invocation.graph node vars).2 } []
  | opens :
      Replies invocation world .openSession invocation.identity.session
        (invocation.openSession world).1 (invocation.openSession world).2 []
  | refused {session node : String} {snapshot : Value}
      (gone : world.debugger.beginPause session node snapshot = none) :
      Replies invocation world (.pause session node snapshot) .stop invocation world
        [.commanded invocation.name .stop]
  | impatient {session node : String} {snapshot : Value} {debugger : Debugger}
      (begun : world.debugger.beginPause session node snapshot = some debugger)
      (patience : debugger.patience = some 0) :
      Replies invocation world (.pause session node snapshot) .stop
        (invocation.expire { world with debugger } session node).1
        (invocation.expire { world with debugger } session node).2
        (invocation.expiry { world with debugger } session node ++
          pausing world session node snapshot)
  | acts {action : String} {payload : Value} {answer : Except Fault Value}
      (now : invocation.capability.reply action payload = .now answer) :
      Replies invocation world (.act action payload) answer (invocation.noteCall action payload)
        world []
  | ticket :
      Replies invocation world .ticket (world.drawn + 1) invocation
        { world with drawn := world.drawn + 1 } []
  | announce (moment : Moment) :
      Replies invocation world (.announce moment) ()
        { invocation with recorder := invocation.recorder.map (·.observe moment) } world []

/-- A question that has to wait: where that leaves the invocation, and what goes on record
besides the question. -/
inductive Waits (invocation : Invocation) (world : Surroundings) :
    (q : Query) → (q.Answer → Run) → Invocation → Surroundings → List Deed → Prop
  | pauses {session node : String} {snapshot : Value} {debugger : Debugger}
      {next : Command → Run}
      (begun : world.debugger.beginPause session node snapshot = some debugger)
      (patience : debugger.patience ≠ some 0) :
      Waits invocation world (.pause session node snapshot) next
        { invocation with
          stage := .paused session node world.pauses
            (debugger.patience.map (world.clock + ·)) next }
        { world with debugger, pauses := world.pauses + 1 }
        (pausing world session node snapshot)
  | acts {action : String} {payload : Value} {next : Except Fault Value → Run}
      (later : invocation.capability.reply action payload = .later) :
      Waits invocation world (.act action payload) next
        { invocation.noteCall action payload with owed := .answer, stage := .waiting next } world []
  | exhausted {next : Empty → Run} :
      Waits invocation world .exhausted next { invocation with stage := .dropped } world []

/-- An action that is noted changes nothing but the calls. -/
theorem noteCall_eq (invocation : Invocation) (action : String) (payload : Value) :
    invocation.noteCall action payload =
      { invocation with callsRev := (invocation.noteCall action payload).callsRev } := by
  rw [noteCall]
  split <;> rfl

@[simp] theorem noteCall_capability (invocation : Invocation) (action : String) (payload : Value) :
    (invocation.noteCall action payload).capability = invocation.capability := by
  rw [noteCall_eq]

/-- What a drive does with a question, and what it puts on record. -/
theorem drive_cases (invocation : Invocation) (world : Surroundings) (q : Query)
    (next : q.Answer → Run) :
    (∃ answer after world' deeds, Replies invocation world q answer after world' deeds ∧
      invocation.drive world (ask q next) = after.drive world' (next answer) ∧
      invocation.record world (ask q next) =
        after.record world' (next answer) ++ (deeds ++ [.asked invocation.name q])) ∨
    ∃ after world' deeds, Waits invocation world q next after world' deeds ∧
      invocation.drive world (ask q next) = (after, world') ∧
      invocation.record world (ask q next) = deeds ++ [.asked invocation.name q] := by
  cases q with
  | isCancelled => exact .inl ⟨_, _, _, _, .token, rfl, rfl⟩
  | visit node vars => exact .inl ⟨_, _, _, _, .visit node vars, rfl, rfl⟩
  | openSession => exact .inl ⟨_, _, _, _, .opens, rfl, rfl⟩
  | pause session node snapshot =>
    rw [drive, record]
    cases begun : world.debugger.beginPause session node snapshot with
    | none => exact .inl ⟨_, _, _, _, .refused begun, rfl, rfl⟩
    | some =>
      simp only
      split
      · rename_i patience
        refine .inl ⟨_, _, _, _, .impatient begun patience, rfl, ?_⟩
        rw [List.append_assoc]
      · rename_i patience
        exact .inr ⟨_, _, _, .pauses begun patience, rfl, rfl⟩
  | act action payload =>
    rw [drive, record]
    have same := invocation.noteCall_capability action payload
    cases reply : (invocation.noteCall action payload).capability.reply action payload with
    | now => exact .inl ⟨_, _, _, _, .acts (same ▸ reply), rfl, rfl⟩
    | later => exact .inr ⟨_, _, _, .acts (same ▸ reply), rfl, rfl⟩
  | ticket => exact .inl ⟨_, _, _, _, .ticket, rfl, rfl⟩
  | announce moment => exact .inl ⟨_, _, _, _, .announce moment, rfl, rfl⟩
  | exhausted => exact .inr ⟨_, _, _, .exhausted, rfl, rfl⟩

/-- What every reply keeps while an invocation is driven, and what every way to stop then
makes of it, holds after the drive. -/
theorem drive_rule (busy : Invocation → Surroundings → Run → List Deed → Prop)
    (left : Invocation → Surroundings → List Deed → Prop)
    (replies : ∀ {invocation world q next log answer after world' deeds},
      busy invocation world (ask q next) log →
      Replies invocation world q answer after world' deeds →
      busy after world' (next answer) (deeds ++ .asked invocation.name q :: log))
    (waits : ∀ {invocation world q next log after world' deeds},
      busy invocation world (ask q next) log → Waits invocation world q next after world' deeds →
      left after world' (deeds ++ .asked invocation.name q :: log))
    (ends : ∀ {invocation world result walker log},
      busy invocation world (done (result, walker)) log →
      left (invocation.finish world result walker).1 (invocation.finish world result walker).2
        (invocation.record world (done (result, walker)) ++ log))
    {invocation : Invocation} {world : Surroundings} {run : Run} {log : List Deed}
    (holds : busy invocation world run log) :
    left (invocation.drive world run).1 (invocation.drive world run).2
      (invocation.record world run ++ log) := by
  induction run generalizing invocation world log with
  | done => exact ends holds
  | ask q next ih =>
    rcases drive_cases invocation world q next with
      ⟨answer, after, world', deeds, reply, drives, records⟩ |
      ⟨after, world', deeds, wait, drives, records⟩
    · rw [drives, records, List.append_assoc, List.append_assoc]
      exact ih answer (replies holds reply)
    · rw [drives, records, List.append_assoc]
      exact waits holds wait

def obeying (invocation : Invocation) (command : Command) : Invocation :=
  { invocation with
    cancelled := match command with
      | .resume _ => invocation.cancelled
      | .stop => true }

def obedience (invocation : Invocation) : Command → List Deed
  | .resume overrides => [.commanded invocation.name (.resume overrides)]
  | .stop => [.cancelled invocation.name, .commanded invocation.name .stop]

/-- What an invocation can go on with, and what goes on record when it does. -/
inductive Prompted (invocation : Invocation) (world : Surroundings) :
    Invocation → Surroundings → Run → List Deed → Prop
  | command {session node : String} {number : Nat} {deadline : Option Nat} {next : Command → Run}
      {command : Command} (paused : invocation.stage = .paused session node number deadline next)
      (given : (world.debugger.session? session).bind Session.given? = some command) :
      Prompted invocation world
        (invocation.obeying command)
        { world with debugger := world.debugger.endPause session command } (next command)
        (invocation.obedience command)
  | expired {session node : String} {number : Nat} {deadline : Option Nat} {next : Command → Run}
      (paused : invocation.stage = .paused session node number deadline next)
      (none : (world.debugger.session? session).bind Session.given? = none)
      (passed : deadline.any (· ≤ world.clock) = true) :
      Prompted invocation world (invocation.expire world session node).1
        (invocation.expire world session node).2 (next .stop)
        (invocation.expiry world session node)
  | answer {next : Except Fault Value → Run} {answer : Except Fault Value}
      (waiting : invocation.stage = .waiting next) (given : invocation.owed = .given answer) :
      Prompted invocation world { invocation with owed := .nothing } world (next answer)
        [.answered invocation.name answer]

/-- The record of a turn, latest first. -/
def turn (invocation : Invocation) (world : Surroundings) : List Deed :=
  match invocation.stage with
  | .paused session node _ deadline next =>
    match (world.debugger.session? session).bind Session.given? with
    | some command =>
      let after := { world with debugger := world.debugger.endPause session command }
      (invocation.obeying command).record after (next command) ++ invocation.obedience command
    | none =>
      if deadline.any (· ≤ world.clock) then
        let (expired, after) := invocation.expire world session node
        expired.record after (next .stop) ++ invocation.expiry world session node
      else []
  | .waiting next =>
    match invocation.owed with
    | .given answer =>
      { invocation with owed := .nothing }.record world (next answer) ++
        [.answered invocation.name answer]
    | .nothing | .answer => []
  | .finished _ | .refused _ | .dropped => []

/-- An invocation either has nothing to go on with or is driven on. -/
theorem wake_cases (invocation : Invocation) (world : Surroundings) :
    (invocation.wake world = (invocation, world) ∧ invocation.turn world = []) ∨
    ∃ going world' run deeds, Prompted invocation world going world' run deeds ∧
      invocation.wake world = going.drive world' run ∧
      invocation.turn world = going.record world' run ++ deeds := by
  obtain ⟨_, _, _, _, _, _, _, _, _, owed, stage⟩ := invocation
  cases stage with
  | paused session =>
    rw [wake, turn]
    cases given : (world.debugger.session? session).bind Session.given? with
    | some =>
      refine .inr ⟨_, _, _, _, .command rfl given, ?_, ?_⟩
      · simp only [given]
        rfl
      · simp only [given]
    | none =>
      simp only [given]
      split
      · rename_i passed
        exact .inr ⟨_, _, _, _, .expired rfl given passed, rfl, rfl⟩
      · exact .inl ⟨rfl, rfl⟩
  | waiting =>
    cases owed with
    | given => exact .inr ⟨_, _, _, _, .answer rfl rfl, rfl, rfl⟩
    | nothing | answer => exact .inl ⟨rfl, rfl⟩
  | finished | refused | dropped => exact .inl ⟨rfl, rfl⟩

/-- A paused invocation that has been given a command takes it. -/
theorem wake_of_given {session node : String} {number : Nat} {deadline : Option Nat}
    {next : Command → Run} {command : Command}
    (paused : invocation.stage = .paused session node number deadline next)
    (given : (world.debugger.session? session).bind Session.given? = some command) :
    invocation.wake world = (invocation.obeying command).drive
      { world with debugger := world.debugger.endPause session command } (next command) := by
  obtain ⟨_, _, _, _, _, _, _, _, _, _, stage⟩ := invocation
  cases paused
  simp only [wake, given]
  rfl

/-- An invocation that waits and has been given its answer takes it. -/
theorem wake_of_answer {next : Except Fault Value → Run} {answer : Except Fault Value}
    (waiting : invocation.stage = .waiting next) (given : invocation.owed = .given answer)
    (world : Surroundings) :
    invocation.wake world = { invocation with owed := .nothing }.drive world (next answer) := by
  obtain ⟨_, _, _, _, _, _, _, _, _, _, _⟩ := invocation
  cases waiting
  cases given
  rfl

def origin (settings : EngineSettings) (circuit : Circuit) (identity : Identity)
    (request : Request) : Run :=
  Walk.start
    (.of circuit identity.invocation request.capability.name settings.maxIterations
      settings.maxSnapshot)
    (nesting circuit) request.entry { args := request.args, event := request.event }

/-- An invocation before its first question. -/
def fresh (settings : EngineSettings) (world : Surroundings) (circuit : Circuit) (name : String)
    (identity : Identity) (request : Request) : Invocation where
  name := name
  identity := identity
  graph := circuit.id
  capability := request.capability
  started := world.now
  recorder :=
    if request.traced.getD settings.traceByDefault then some { most := settings.maxSnapshot }
    else none
  cancelled := request.cancelled
  stage := .dropped

def rejected (settings : EngineSettings) (world : Surroundings) (circuit : Circuit)
    (name : String) (identity : Identity) (request : Request) : Invocation :=
  { fresh settings world circuit name identity request with
    recorder := none, stage := .refused (.wiring (.noEntry request.entry circuit.id)) }

theorem begin_eq (settings : EngineSettings) (world : Surroundings) (circuit : Circuit)
    (name : String) (identity : Identity) (request : Request) :
    begin settings world circuit name identity request =
      if circuit.contains request.entry then
        (fresh settings world circuit name identity request).drive world
          (origin settings circuit identity request)
      else (rejected settings world circuit name identity request, world) := rfl

/-- What goes on record before a walk puts its first question. -/
def opening (circuit : Circuit) (name : String) (identity : Identity) (request : Request) :
    List Deed :=
  let started : Deed := .started name identity circuit request
  if request.cancelled then [.cancelled name, started] else [started]

/-- The record of a beginning, latest first. -/
def beginning (settings : EngineSettings) (world : Surroundings) (circuit : Circuit)
    (name : String) (identity : Identity) (request : Request) : List Deed :=
  (if circuit.contains request.entry then
    (fresh settings world circuit name identity request).record world
      (origin settings circuit identity request)
  else []) ++ opening circuit name identity request

end Invocation

namespace Desk

/-- The record of a move, latest first. -/
def deeds (desk : Desk) : Move → List Deed
  | .start name identity circuit request =>
    if desk.admits name identity then
      Invocation.beginning desk.settings desk.world circuit name identity request
    else []
  | .wake name =>
    match desk.invocation? name with
    | some invocation => invocation.turn desk.world
    | none => []
  | .cancel name =>
    match desk.invocation? name with
    | some _ => [.cancelled name]
    | none => []
  | .resume session overrides =>
    match (desk.world.debugger.resume session overrides).1 with
    | .ok () => desk.world.debugger.report session fun _ => .resumed
    | .error _ => []
  | .stop session =>
    match desk.world.debugger.stop session with
    | .ok _ =>
      (desk.invocations.filter fun invocation => invocation.session == some session).map
        fun invocation => .cancelled invocation.name
    | .error _ => []
  | .watch change => [.watched change]
  | .drop _ | .release _ _ | .advance _ | .edit _ => []

/-- Where a deed on the record of a move comes from. -/
theorem mem_deeds_cases {move : Move} {deed : Deed} (member : deed ∈ desk.deeds move) :
    (∃ name identity circuit request, move = .start name identity circuit request ∧
      desk.admits name identity = true ∧
      deed ∈ Invocation.beginning desk.settings desk.world circuit name identity request) ∨
    (∃ name waking, move = .wake name ∧ desk.invocation? name = some waking ∧
      deed ∈ waking.turn desk.world) ∨
    (∃ session overrides, move = .resume session overrides ∧
      deed ∈ desk.world.debugger.report session fun _ => .resumed) ∨
    (∃ name, deed = .cancelled name) ∨ ∃ change, deed = .watched change := by
  revert member
  fun_cases deeds desk move with
  | case1 name identity circuit request admits =>
    exact fun member => .inl ⟨name, identity, circuit, request, rfl, admits, member⟩
  | case3 name waking found =>
    exact fun member => .inr (.inl ⟨name, waking, rfl, found, member⟩)
  | case7 session overrides =>
    exact fun member => .inr (.inr (.inl ⟨session, overrides, rfl, member⟩))
  | case9 session =>
    intro member
    obtain ⟨invocation, -, rfl⟩ := List.mem_map.mp member
    exact .inr (.inr (.inr (.inl ⟨invocation.name, rfl⟩)))
  | _ => simp +contextual

/-- The record of a play, latest first. -/
def chronicle (desk : Desk) : List Move → List Deed
  | [] => []
  | move :: moves => (desk.make move).chronicle moves ++ desk.deeds move

@[simp] theorem chronicle_nil (desk : Desk) : desk.chronicle [] = [] := rfl

@[simp] theorem chronicle_singleton (desk : Desk) (move : Move) :
    desk.chronicle [move] = desk.deeds move := rfl

@[simp] theorem chronicle_append (desk : Desk) (first second : List Move) :
    desk.chronicle (first ++ second) = (desk.play first).chronicle second ++ desk.chronicle first := by
  induction first generalizing desk with
  | nil => rw [List.nil_append, play_nil, chronicle_nil, List.append_nil]
  | cons move first ih => rw [List.cons_append, chronicle, ih, chronicle, play_cons, List.append_assoc]

theorem mem_chronicle_append {first : List Move} {deed : Deed}
    (member : deed ∈ desk.chronicle first) (second : List Move) :
    deed ∈ desk.chronicle (first ++ second) := by
  rw [chronicle_append]
  exact List.mem_append_right _ member

variable (holds : Desk → List Deed → Prop)
  (step : ∀ {desk log} move, holds desk log → holds (desk.make move) (desk.deeds move ++ log))
include holds step

/-- What every move keeps, a play keeps. -/
theorem play_rule (now : holds desk log) (moves : List Move) :
    holds (desk.play moves) (desk.chronicle moves ++ log) := by
  induction moves generalizing desk log with
  | nil => exact now
  | cons move moves ih =>
    rw [play_cons, chronicle, List.append_assoc]
    exact ih (step move now)

/-- What holds with nothing on record and is kept by every move holds of every chronicle. -/
theorem chronicle_rule (now : holds desk []) (moves : List Move) :
    holds (desk.play moves) (desk.chronicle moves) := by
  have played := play_rule holds step now moves
  rwa [List.append_nil] at played

end Desk

end Pinflow
