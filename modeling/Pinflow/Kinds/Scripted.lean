import Pinflow.Fault.Report
import Pinflow.Kinds.Builtin

/-!
# Scripted kinds

Kinds whose nodes do what their config lists. A list of actions exercises every call
that a script can make, so a graph can be built for any question about walks.

An action is an array of a name and arguments. Most actions leave a line with their
value in the log; those that only change something are quiet.
-/

namespace Pinflow.Kinds.Scripted

def pin (direction : Direction) (description : Value) : Pin where
  id := (description.stringField? "id").getD ""
  type := ((description.stringField? "type").bind PinType.ofName?).getD .wildcard
  direction := direction
  required := (description.boolField? "required").getD false
  default := description.field? "default"

def pins (config : Fields) : Except Fault Schema :=
  match config.get? "fail_pins" with
  | some description => .error (.described description)
  | none =>
    let listed (key : String) : List Value :=
      (((config.get? "pins").bind (·.field? key)).bind Value.asList?).getD []
    .ok {
      inputs := (listed "inputs").map (pin .input)
      outputs := (listed "outputs").map (pin .output) }

/-- A text argument. -/
def text (args : List Value) (i : Nat) : String := ((args[i]?).bind Value.asString?).getD ""

/-- An argument of any sort. -/
def item (args : List Value) (i : Nat) : Value := (args[i]?).getD .null

/-- What an action came to: its value, and the signal if control came back to it. -/
structure Result where
  value : Value := .null
  signal : Option Signal := none

def signalValue (signal : Signal) : Value :=
  let shown : Value := match signal with
    | .done => .str "done"
    | .broken origin => .object [("break", .str origin)]
  .object [("signal", shown), ("break", .bool signal.isBreak)]

/-- Log the value of an action of a node. -/
def logged (me name : String) (result : Result) : Routine Result := do
  Routine.log (me ++ "." ++ name ++ "=" ++ result.value.render)
  return result

def ofValue (value : Value) : Result := { value }

def ofSignal (signal : Signal) : Result := { value := signalValue signal, signal := some signal }

/-- The value that an action with this name takes from the context, the memo or the
circuit. -/
def observation? (args : List Value) : String → Option (Routine Value)
  | "get" => some do return ((← Routine.context).lookup? (text args 0)).getD .null
  | "variables" => some do return .obj (← Routine.context).vars
  | "args" => some do return (← Routine.context).args
  | "event" => some do return (← Routine.context).eventValue
  | "intents" => some do return .arr ((← Routine.context).intents.map Intent.toValue)
  | "lines" => some do return .arr ((← Routine.context).lines.map Value.str)
  | "capability" => some do return .str (← Routine.about).capability
  | "snapshot" => some do
    let context ← Routine.context
    let memo ← Routine.memo
    return .obj (context.snapshot memo ((item args 0).asNat?.getD 0))
  | "memo" => some do
    let memo ← Routine.memo
    return .object [("entries", .obj memo.toFields), ("hits", .ofNat memo.hits),
      ("misses", .ofNat memo.misses)]
  | "session" => some do return .bool (← Routine.inSession)
  | "cancelled" => some do return .bool (← Routine.isCancelled)
  | "ceiling" => some do return .ofNat (← Routine.about).maxIterations
  | "graph" => some do
    let about ← Routine.about
    return .arr [.str about.graphId, .str about.graphName, .ofNat about.size]
  | _ => none

/-- The quiet action of this name. -/
def change? (me : String) (args : List Value) : String → Option (Routine Unit)
  | "set" => some (Routine.assign (text args 0) (item args 1))
  | "persist" => some (Routine.persist ⟨text args 0, item args 1, me⟩)
  | "log" => some (Routine.log (text args 0))
  | "note" => some (Routine.note me (text args 0))
  | "store" => some (Routine.store me [(text args 0, item args 1)])
  | "invalidate_loop" => some (Routine.reenter (text args 0) (text args 1))
  | "refresh_loop" => some (Routine.refresh (text args 0) (text args 1))
  | _ => none

/-- Perform an action that holds no other action. -/
def simple (me name : String) (args : List Value) : Routine Result := do
  match name with
  | "input" => logged me name (ofValue (← Routine.input me (text args 0)))
  | "input_of" => logged me name (ofValue (← Routine.input (text args 0) (text args 1)))
  | "resolve" => logged me name (ofValue (← Routine.resolve me (text args 0) (item args 1)))
  | "output" => logged me name (ofValue (← Routine.output ⟨text args 0, text args 1⟩))
  | "traverse" => logged me name (ofSignal (← Routine.traverse me (text args 0)))
  | "run" => logged me name (ofSignal (← Routine.run (text args 0)))
  | _ =>
    match observation? args name, change? me args name with
    | some observe, _ => logged me name (ofValue (← observe))
    | none, some change => do
      change
      return {}
    | none, none => .fail me (.unknownAction name)

def tried (me : String) (action : Routine Result) : Routine Result := do
  match ← action.attempt with
  | .ok result => return result
  | .error fault => logged me "try" (ofValue fault.toValue)

mutual

def perform (me : String) : Value → Routine Result
  | .arr items => performItems me items
  | _ => .fail me (.unknownAction "")
termination_by structural action => action

def performItems (me : String) : List Value → Routine Result
  | [] => .fail me (.unknownAction "")
  | name :: args =>
    match name.asString?.getD "" with
    | "try" => tried me (performFirst me args)
    | name => simple me name args
termination_by structural items => items

def performFirst (me : String) : List Value → Routine Result
  | [] => .fail me (.unknownAction "")
  | action :: _ => perform me action
termination_by structural actions => actions

end

/-- Perform actions in order. What remains is the value of the last one and the last
signal. -/
def performAll (me : String) : Result → List Value → Routine Result
  | result, [] => return result
  | result, action :: rest => do
    let latest ← perform me action
    performAll me ⟨latest.value, latest.signal.or result.signal⟩ rest

def actions (description : Value) : List Value :=
  (description.listField? "do").getD []

/-- Where control goes after the actions of a node. -/
def flow (config : Fields) (result : Result) : Except Fault Flow :=
  match config.get? "flow" with
  | none => .ok (.next thenPin)
  | some (.str "break") => .ok .break
  | some (.str "last") => .ok (.forward (result.signal.getD .done))
  | some description =>
    match description.field? "error", description.stringField? "next",
      description.stringField? "forward_break" with
    | some fault, _, _ => .error (.described fault)
    | none, some pin, _ => .ok (.next pin)
    | none, none, some origin => .ok (.forward (.broken origin))
    | none, none, none => .ok .finish

/-- Compute an output as `eval` lists it for the pin. -/
def evaluate (node : Node) (pin : String) : Routine Value := do
  let description := (((node.config.get? "eval").bind (·.field? pin))).getD .null
  let result ← performAll node.id {} (actions description)
  match description.field? "error", description.field? "value" with
  | some fault, _ => throw (.described fault)
  | none, some value => return value
  | none, none => return result.value

/-- Do what `do` lists and go on as `flow` says. -/
def execute (node : Node) : Routine Flow := do
  let result ← performAll node.id {} (actions (.obj node.config))
  flow node.config result

def counter : Kind where
  id := "counter"
  pins _ := .ok { outputs := [.output "value" .number] }
  evaluate _ _ := do return .ofNat (← Routine.ticket)

/-- Has pins and nothing else. -/
def bare : Kind where
  id := "bare"
  pins := pins

/-- Does what its config lists. -/
def probe : Kind where
  id := "probe"
  pins := pins
  evaluate := evaluate
  execute := execute

/-- A probe whose outputs count as dependent on variables. -/
def volatileProbe : Kind :=
  { probe with id := "vprobe", volatile := true }

end Pinflow.Kinds.Scripted

namespace Pinflow

def Registry.scripted : Registry :=
  [Kinds.Scripted.counter, Kinds.Scripted.bare, Kinds.Scripted.probe,
    Kinds.Scripted.volatileProbe].foldl Registry.register Registry.builtin

end Pinflow
