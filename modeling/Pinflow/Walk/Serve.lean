import Pinflow.Walk.Basic

/-!
# Serving scripts

How a walk answers the calls of the scripts it runs. Pulling an output looks into
the memo, refuses to go round in a circle, and otherwise runs the evaluator; running
a node asks the debugger first, runs the executor and then goes where the executor
says.

`serve` answers a call whose scripts nest at most `depth` deep. Each operation is
written for an arbitrary `inner` server, which answers the scripts it starts.
-/

namespace Pinflow.Walk

abbrev Stateful := StateT Walker Walk

/-- Computations on the state of a walk that may end in a fault. -/
abbrev Guarded := ExceptT Fault Stateful

abbrev Server := (c : Call) → Stateful c.Answer

/-- Put a question to the surroundings. -/
def ask (q : Query) : Stateful q.Answer := StateT.lift (Dialogue.query (I := Query.interface) q)

/-- Tell the observers what happened. -/
def announce (happening : Happening) : Stateful Unit := do
  let walker ← get
  ask (.announce ⟨happening, walker⟩)

/-- Answer the calls of a script. -/
def perform {α : Type} (inner : Server) (script : Script α) : Stateful α :=
  script.interpret inner

/-- Answer the calls of a routine, and hand its fault on as a value. -/
def attempt {α : Type} (inner : Server) (routine : Routine α) : Guarded (Except Fault α) :=
  ExceptT.lift (perform inner (ExceptT.run routine))

/-- End with a fault if the walk has been cancelled. The fault names the session, or
the invocation when there is none. -/
def checkCancelled (setting : Setting) : Guarded Unit := do
  let cancelled : Bool ← ask .isCancelled
  if cancelled then
    let walker ← get
    throw (.stopped (walker.session.getD setting.invocation))

/-- Write a variable and forget what may depend on it. -/
def assign (setting : Setting) (path : String) (value : Value) : Stateful Unit := do
  modify fun walker => { walker with
    context := walker.context.assign path value
    memo := walker.memo.invalidate setting.volatile }
  announce (.assigned path value)

/-- Put outputs of a node into the memo. -/
def store (node : String) (values : List (String × Value)) : Stateful Unit := do
  modify fun walker => { walker with memo := walker.memo.storeMany node values }
  announce (.stored node values)

/-- Forget everything in the scope of a loop. -/
def reenter (setting : Setting) (loop pin : String) : Stateful Unit := do
  let scope := setting.circuit.loopScope loop pin
  modify fun walker => { walker with
    memo := (walker.memo.invalidate scope.executed).invalidate scope.derived }
  announce (.reentered loop pin)

/-- Forget the data computed in the scope of a loop. What body nodes wrote when they
ran stays. -/
def refresh (setting : Setting) (loop pin : String) : Stateful Unit := do
  let scope := setting.circuit.loopScope loop pin
  modify fun walker => { walker with memo := walker.memo.invalidate scope.derived }
  announce (.refreshed loop pin)

/-- The circle from a node back to itself, along the nodes being resolved. -/
def cyclePath (resolving : List String) (node : String) : String :=
  " -> ".intercalate (resolving.reverse.dropWhile (· != node) ++ [node])

/-- Run the evaluator of an output and remember what it computes. -/
def compute (inner : Server) (source : PinRef) (part : Part) : Guarded Value := do
  announce (.evaluating source part.node.config)
  modify fun walker => { walker with resolving := source.node :: walker.resolving }
  let result ← attempt inner (part.kind.evaluate part.node source.pin)
  modify fun walker => { walker with resolving := walker.resolving.tail }
  announce (.evaluated source result)
  let value ← result
  modify fun walker => { walker with memo := walker.memo.store source value }
  return value

/-- The value of a data output: remembered, or computed and then remembered. -/
def pull (setting : Setting) (inner : Server) (source : PinRef) : Guarded Value := do
  let walker ← get
  let (found, memo) := walker.memo.lookup source
  set { walker with memo }
  match found with
  | some value => return value
  | none =>
    if walker.resolving.contains source.node then
      throw (.cycle source.node (cyclePath walker.resolving source.node))
    checkCancelled setting
    let part ← setting.circuit.part source.node
    compute inner source part

def output (setting : Setting) (inner : Server) (source : PinRef) : Guarded Value := do
  let result ← ExceptT.lift (ExceptT.run (pull setting inner source))
  announce (.read source result)
  let value ← result
  return value

/-- The value of a data input: from its wire, else from the node's config unless that
is null, else the default. -/
def resolve (setting : Setting) (inner : Server) (node pin : String) (default : Value) :
    Guarded Value := do
  match setting.circuit.incoming? node pin with
  | some source =>
    let value ← output setting inner source
    announce (.supplied node pin value)
    return value
  | none =>
    let part ← setting.circuit.part node
    let value := ((part.node.config.get? pin).filter fun v => !v.isNull).getD default
    announce (.supplied node pin value)
    return value

/-- The value of a declared data input. A required one must not be null. -/
def input (setting : Setting) (inner : Server) (node pin : String) : Guarded Value := do
  let part ← setting.circuit.part node
  match part.schema.input? pin with
  | none => throw (.evaluation node (.noInputPin pin))
  | some declared =>
    let value ← resolve setting inner node pin (declared.default.getD .null)
    if value.isNull && declared.required then throw (.missingInput node pin)
    return value

/-- The debug session of a walk, opened now if it has none yet. -/
def ensureSession : Stateful String := do
  match (← get).session with
  | some session => return session
  | none =>
    let session : String ← ask .openSession
    modify fun walker => { walker with session := some session }
    return session

/-- Write variables in order. -/
def assignAll (setting : Setting) : List (String × Value) → Stateful Unit
  | [] => return
  | (path, value) :: rest => do
    assign setting path value
    assignAll setting rest

/-- Wait for a command before a node. Overrides are written before the walk goes on. -/
def pauseAt (setting : Setting) (node : String) (hits : Nat) : Guarded Unit := do
  let session ← ensureSession
  let walker ← get
  let snapshot := walker.context.snapshot walker.memo setting.maxSnapshot
  let snapshot := (snapshot.insert "node_id" (.str node)).insert "hit_count" (.ofNat hits)
  let command : Command ← ask (.pause session node (.obj snapshot))
  match command with
  | .resume overrides => assignAll setting overrides
  | .stop => throw (.stopped session)

def checkpoint (setting : Setting) (node : String) : Guarded Unit := do
  let walker ← get
  let hit : Option Nat ← ask (.visit node walker.context.vars)
  match hit with
  | none => return
  | some hits => pauseAt setting node hits

/-- Run the executor of a node, then go where it says. -/
def execute (inner : Server) (node : String) (part : Part) : Guarded Signal := do
  announce (.executing node)
  let result ← attempt inner (part.kind.execute part.node)
  announce (.executed node result)
  let flow ← result
  match flow with
  | .next pin =>
    if part.schema.execOutputs.any fun declared => declared.id == pin then
      ExceptT.mk (inner (.traverse node pin))
    else throw (.evaluation node (.noExecOutput pin))
  | .finish => return .done
  | .break => return .broken node
  | .forward signal => return signal

/-- Let control enter a node, unless the debugger or the token stops it there. -/
def run (setting : Setting) (inner : Server) (node : String) : Guarded Signal := do
  checkCancelled setting
  let part ← setting.circuit.part node
  checkpoint setting node
  checkCancelled setting
  execute inner node part

/-- Follow an exec output to the node it leads to. An output without a wire leads
nowhere. -/
def follow (setting : Setting) (inner : Server) (node pin : String) : Guarded Signal := do
  match setting.circuit.execTarget? node pin with
  | none => return .done
  | some target =>
    announce (.followed ⟨node, pin⟩ target)
    run setting inner target.node

/-- Let control leave by an exec output and come back. -/
def traverse (setting : Setting) (inner : Server) (node pin : String) : Guarded Signal := do
  announce (.traversing ⟨node, pin⟩)
  let result ← ExceptT.lift (ExceptT.run (follow setting inner node pin))
  announce (.traversed ⟨node, pin⟩ result)
  let signal ← result
  return signal

/-- A walk that is nested too deep goes no further. -/
def exhausted {α : Type} : Stateful α := do
  let nothing ← ask .exhausted
  nomatch (nothing : Empty)

/-- Answer one call, given a server for the scripts it starts. -/
def answer (setting : Setting) (inner : Server) : Server
  | .input node pin => ExceptT.run (input setting inner node pin)
  | .resolve node pin default => ExceptT.run (resolve setting inner node pin default)
  | .output source => ExceptT.run (output setting inner source)
  | .traverse node pin => ExceptT.run (traverse setting inner node pin)
  | .run node => ExceptT.run (run setting inner node)
  | .context => return (← get).context
  | .memo => return (← get).memo
  | .about => return setting.about
  | .inSession => return (← get).session.isSome
  | .isCancelled => ask .isCancelled
  | .assign path value => assign setting path value
  | .persist intent =>
    modify fun walker => { walker with context := walker.context.persist intent }
  | .log line => modify fun walker => { walker with context := walker.context.log line }
  | .note node message => announce (.noted node message)
  | .store node values => store node values
  | .reenter loop pin => reenter setting loop pin
  | .refresh loop pin => refresh setting loop pin
  | .act action payload => ask (.act action payload)
  | .ticket => ask .ticket

/-- Answer calls whose scripts nest at most `depth` deep. -/
def serve (setting : Setting) : (depth : Nat) → Server
  | 0 => fun _ => exhausted
  | depth + 1 => answer setting (serve setting depth)

/-- The walk from an entry node. A break that no loop took is a fault of the node
that raised it. -/
def start (setting : Setting) (depth : Nat) (entry : String) (context : Context) :
    Walk (Except Fault Unit × Walker) := do
  let (result, walker) ← (serve setting depth (.run entry)).run { context }
  match result with
  | .ok .done => return (.ok (), walker)
  | .ok (.broken origin) => return (.error (.breakOutsideLoop origin), walker)
  | .error fault => return (.error fault, walker)

end Pinflow.Walk
