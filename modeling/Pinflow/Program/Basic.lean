import Pinflow.Console.Prompt
import Pinflow.Event.Journal
import Pinflow.Graph.Text
import Pinflow.Kinds.Builtin
import Pinflow.Program.CommandLine
import Pinflow.Program.TableFile
import Pinflow.Settings.Text

/-!
# The program

Checks, runs, debugs and replays graphs from the command line. `Program.start` is the
whole program as a dialogue with its host; its result is the exit code.
-/

namespace Pinflow.Program

/-- Where the settings usually are. -/
def settingsPath : String := "botgraph.toml"

/-- The variable of the environment that names another place. -/
def settingsVariable : String := "BOTGRAPH_CONFIG"

/-- Look names up in the environment. -/
def lookupAll : List String → Program (List (String × String))
  | [] => return []
  | name :: rest => do
    let value ← environment name
    let others ← lookupAll rest
    return match value with
      | some value => (name, value) :: others
      | none => others

/-- Load the settings; without a file they are all defaults. -/
def loadSettings (path : String) : Attempt Settings := do
  if !(← hasPath path) then return {}
  match ← readText path with
  | none => throw (.loading path)
  | some text =>
    let values ← lookupAll (Reference.names text)
    let lookup (name : String) : Option String :=
      (values.find? fun entry => entry.1 == name).map Prod.snd
    match Settings.read lookup text with
    | .ok settings => return settings
    | .error _ => throw (.loading path)

def openArchive (settings : Settings) (home : Option String) : Attempt Archive := do
  match settings.trace.backend with
  | .memory => return .memory {}
  | .table => return .table (← openTable (settings.tracePath home))

/-- Keep what an archive holds beyond the end of the program. -/
def saveArchive (settings : Settings) (home : Option String) (archive : Archive) : Program Unit :=
  match archive with
  | .table table => saveTable (settings.tracePath home) table
  | _ => return

def loadGraph (path : String) : Attempt Circuit := do
  match ← readText path with
  | none => throw (.reading path)
  | some text =>
    match Graph.read text >>= Circuit.load Registry.builtin with
    | .ok circuit => return circuit
    | .error fault => throw (.fault fault)

def setBreakpoint (graph : String) (desk : Desk) (spec : String) : Attempt Desk :=
  let (node, condition) := match Text.splitFirst? ':' spec.toList with
    | some (node, condition) => (String.ofList node, some (String.ofList condition))
    | none => (spec, none)
  match desk.world.debugger.setBreakpoint graph node condition with
  | .ok debugger => return desk.withDebugger debugger
  | .error fault => throw (.fault fault)

/-- Show what an invocation left behind. -/
def showOutcome (invocation : Invocation) (outcome : Outcome) : Program Unit := do
  printLine (s!"invocation {invocation.identity.invocation}: " ++ outcome.status.title)
  match outcome.fault with
  | some fault => printLine ("error: " ++ fault.message)
  | none => pure ()
  outcome.lines.forM fun line => printLine ("log: " ++ line)
  if !outcome.vars.isEmpty then
    printLine ("variables: " ++ (Value.obj outcome.vars).pretty)
  outcome.intents.forM fun intent =>
    printLine (s!"persist: {intent.key} = " ++ intent.value.render ++ s!" (from {intent.node})")
  match outcome.trace with
  | some trace => printLine s!"trace: {trace.id} ({trace.steps.length} steps)"
  | none => pure ()

/-- The name under which the journal watches the debugger. -/
def journalSubscriber : String := "journal"

def journalLine (date : String) (entry : Value) : String :=
  match entry with
  | .obj fields => (Value.obj (Fields.insert fields "timestamp" (.str date))).render ++ "\n"
  | other => other.render ++ "\n"

def writeJournal (settings : Settings) (directory graph : String) (desk : Desk) : Program Unit := do
  let (events, _) := desk.world.debugger.channel.collect journalSubscriber graph
  let date ← now
  let file := String.ofList (date.text.toList.filter Char.isAlphanum) ++ ".jsonl"
  let directory := Settings.joinPath directory (Journal.directory graph)
  let entries := Journal.entries graph (some settings.engine.maxSnapshot) events
  let lines := String.join (entries.map (journalLine date.text))
  if (← makeDirectories directory).isNone then
    let _ ← writeFile (Settings.joinPath directory file) lines

def runGraph (lines : Nat) (settings : Settings) (home : Option String) (archive : Archive)
    (path entry : String) (args event : Option String) (trace : Bool) (breakpoints : List String) :
    Attempt Nat := do
  let circuit ← loadGraph path
  let args ← match args with
    | none => pure (.obj [])
    | some text =>
      match Value.read? text with
      | some value => pure value
      | none => throw .badArguments
  let desk := (Desk.ofSettings settings.engine settings.debug archive (← now)).addCircuit circuit
  let desk ← breakpoints.foldlM (setBreakpoint circuit.id) desk
  let watch (desk : Desk) (name : String) : Desk :=
    let debugger := desk.world.debugger
    desk.withDebugger { debugger with channel := debugger.channel.subscribe name }
  let logDirectory := settings.logDirectory? home
  let desk := if logDirectory.isSome then watch desk journalSubscriber else desk
  let desk := if breakpoints.isEmpty then desk else watch desk Console.subscriber
  let identity : Identity := ⟨← freshId, ← freshId, ← freshId⟩
  let request : Request := { entry, args, event, traced := if trace then some true else none }
  let desk := desk.start identity.invocation identity circuit request
  let desk ← if breakpoints.isEmpty then pure desk else Console.debug circuit.id lines desk
  match logDirectory with
  | some directory => writeJournal settings directory circuit.id desk
  | none => pure ()
  match desk.invocation? identity.invocation with
  | none => return 1
  | some invocation =>
    match invocation.stage with
    | .refused fault => throw (.fault fault)
    | .finished outcome =>
      saveArchive settings home desk.world.archive
      showOutcome invocation outcome
      return if outcome.status == .completed then 0 else 1
    | .paused .. | .waiting _ | .dropped => return 1

def perform (lines : Nat) (line : CommandLine) : Attempt Nat := do
  let settings ← loadSettings (line.config.getD settingsPath)
  let home ← environment "HOME"
  let archive ← openArchive settings home
  match line.task with
  | .validate path => do
    let circuit ← loadGraph path
    printLine s!"{circuit.id}: {circuit.parts.length} nodes, {circuit.edgeCount} edges, ok"
    return 0
  | .run path entry args event trace breakpoints =>
    runGraph lines settings home archive path entry args event trace breakpoints
  | .replay id =>
    match archive.load id with
    | .ok (some trace) => do
      Console.replay lines trace
      return 0
    | .ok none => throw (.noTrace id settings.trace.backend)
    | .error fault => throw (.fault fault)
  | .traces graph limit =>
    match archive.list graph limit with
    | .ok ids => do
      ids.forM fun id => printLine id
      return 0
    | .error fault => throw (.fault fault)
  | .config => do
    printLine settings.text
    return 0

/-- The name and version of the program. -/
def versionLine : String := "botgraph 0.1.0"

def usageLine : String :=
  "Usage: botgraph [-c CONFIG] <validate|run|replay|traces|config|completions|help> [...]"

/-- The whole program. It reads at most so many lines of input. -/
def start (lines : Nat) (words : List String) : Program Nat := do
  match CommandLine.read (← environment settingsVariable) words with
  | .error .version => do
    printLine versionLine
    return 0
  | .error .help => do
    printLine usageLine
    return 0
  | .error .completions => return 0
  | .error .misuse => do
    reportLine usageLine
    return 2
  | .ok line =>
    match ← (perform lines line).run with
    | .ok code => return code
    | .error failure => do
      reportLine ("Error: " ++ failure.message)
      return 1

end Pinflow.Program
