import Pinflow.Desk.Invocation

/-!
# Driving an invocation

`Invocation.drive` answers the questions of a walk out of the surroundings until the
walk ends or has to wait. It follows the walk's own structure, so it always comes to
an end.
-/

namespace Pinflow.Invocation

/-- The walk has ended: close the session, finish the trace and keep it. -/
def finish (invocation : Invocation) (world : Surroundings) (result : Except Fault Unit)
    (walker : Walker) : Invocation × Surroundings :=
  let world := match walker.session with
    | some session => { world with debugger := world.debugger.closeSession session result }
    | none => world
  let fault := match result with
    | .ok () => none
    | .error fault => some fault
  let trace := invocation.recorder.map fun recorder =>
    recorder.finalize invocation.traceHead world.now fault
  let world := match trace with
    | some trace => world.keep trace
    | none => world
  let outcome : Outcome := {
    fault, trace
    vars := walker.context.vars
    intents := walker.context.intents
    lines := walker.context.lines }
  ({ invocation with recorder := none, stage := .finished outcome }, world)

def noteCall (invocation : Invocation) (action : String) (payload : Value) : Invocation :=
  if invocation.capability.keepsCalls then
    { invocation with callsRev := (action, payload) :: invocation.callsRev }
  else invocation

def openSession (invocation : Invocation) (world : Surroundings) : Invocation × Surroundings :=
  let session : Session := {
    id := invocation.identity.session
    graph := invocation.graph
    invocation := invocation.identity.invocation }
  ({ invocation with session := some session.id },
    { world with debugger := world.debugger.openSession session })

/-- A pause has lasted too long: the invocation has to stop. -/
def expire (invocation : Invocation) (world : Surroundings) (session node : String) :
    Invocation × Surroundings :=
  ({ invocation with cancelled := true },
    { world with
      debugger := (world.debugger.expirePause session node).endPause session .stop })

/-- Go on with a walk until it ends or has to wait. -/
def drive (invocation : Invocation) (world : Surroundings) : Run → Invocation × Surroundings
  | Dialogue.done (result, walker) => invocation.finish world result walker
  | Dialogue.ask .isCancelled next => invocation.drive world (next invocation.cancelled)
  | Dialogue.ask (.visit node vars) next =>
    let (hit, debugger) := world.debugger.visit invocation.graph node vars
    invocation.drive { world with debugger } (next hit)
  | Dialogue.ask .openSession next =>
    let (invocation, world) := invocation.openSession world
    invocation.drive world (next invocation.identity.session)
  | Dialogue.ask (.pause session node snapshot) next =>
    match world.debugger.beginPause session node snapshot with
    | none => invocation.drive world (next .stop)
    | some debugger =>
      let world := { world with debugger }
      if debugger.patience = some 0 then
        let (invocation, world) := invocation.expire world session node
        invocation.drive world (next .stop)
      else
        let deadline := debugger.patience.map (world.clock + ·)
        ({ invocation with stage := .paused session node world.pauses deadline next },
          { world with pauses := world.pauses + 1 })
  | Dialogue.ask (.act action payload) next =>
    let invocation := invocation.noteCall action payload
    match invocation.capability.reply action payload with
    | .now answer => invocation.drive world (next answer)
    | .later => ({ invocation with owed := .answer, stage := .waiting next }, world)
  | Dialogue.ask .ticket next =>
    let drawn := world.drawn + 1
    invocation.drive { world with drawn } (next drawn)
  | Dialogue.ask (.announce moment) next =>
    let recorder := invocation.recorder.map (·.observe moment)
    { invocation with recorder }.drive world (next ())
  | Dialogue.ask .exhausted _ => ({ invocation with stage := .dropped }, world)

/-- Go on if there is something to go on with: a command, an answer, or a deadline
that has passed. -/
def wake (invocation : Invocation) (world : Surroundings) : Invocation × Surroundings :=
  match invocation.stage with
  | .paused session node _ deadline next =>
    match (world.debugger.session? session).bind Session.given? with
    | some command =>
      let world := { world with debugger := world.debugger.endPause session command }
      let cancelled := match command with
        | .resume _ => invocation.cancelled
        | .stop => true
      { invocation with cancelled }.drive world (next command)
    | none =>
      if deadline.any (· ≤ world.clock) then
        let (invocation, world) := invocation.expire world session node
        invocation.drive world (next .stop)
      else (invocation, world)
  | .waiting next =>
    match invocation.owed with
    | .given answer => { invocation with owed := .nothing }.drive world (next answer)
    | .nothing | .answer => (invocation, world)
  | .finished _ | .refused _ | .dropped => (invocation, world)

/-- How deep the scripts of a walk may nest. Control that never comes back to a node stays
below the part that grows with the circuit; control that goes round is cut off at last. -/
def nesting (circuit : Circuit) : Nat := 10000000 + 2 * circuit.parts.length

/-- Begin an invocation. An entry that the circuit does not have is refused before
anything runs. -/
def begin (settings : EngineSettings) (world : Surroundings) (circuit : Circuit) (name : String)
    (identity : Identity) (request : Request) : Invocation × Surroundings :=
  let idle : Invocation := {
    name, identity
    graph := circuit.id
    capability := request.capability
    started := world.now
    cancelled := request.cancelled
    stage := .dropped }
  if circuit.contains request.entry then
    let traced := request.traced.getD settings.traceByDefault
    let recorder := if traced then some { most := settings.maxSnapshot } else none
    let setting := Setting.of circuit identity.invocation request.capability.name
      settings.maxIterations settings.maxSnapshot
    let context : Context := { args := request.args, event := request.event }
    { idle with recorder }.drive world (Walk.start setting (nesting circuit) request.entry context)
  else ({ idle with stage := .refused (.wiring (.noEntry request.entry circuit.id)) }, world)

end Pinflow.Invocation
