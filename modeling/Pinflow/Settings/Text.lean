import Pinflow.Fault
import Pinflow.Settings.Basic
import Pinflow.Settings.Reference
import Pinflow.Toml.Document
import Pinflow.Toml.Printer

/-!
# Settings as text

Settings are written as a TOML document with three sections. What a document leaves
out has its default, and what it has besides is skipped.
-/

namespace Pinflow

namespace Toml

/-- The values of declared fields: by name from a table, by position from an array. A
date has parts of its own, and none of the declared fields. -/
def fields? (names : List String) : Toml → Option (List (Option Toml))
  | .table _ entries => some (names.map fun name => Entries.get? entries name)
  | .array items | .tables items => some ((List.range names.length).map fun i => items[i]?)
  | .date _ => some (names.map fun _ => none)
  | _ => none

def asNat? : Toml → Option Nat
  | .integer (.ofNat n) => some n
  | _ => none

def asBool? : Toml → Option Bool
  | .boolean b => some b
  | _ => none

def asString? : Toml → Option String
  | .string s => some s
  | _ => none

def isEmpty : Toml → Bool
  | .array items | .tables items => items.isEmpty
  | .table _ entries => entries.isEmpty
  | _ => false

/-- One of several names, plain or as the only key of a table over something empty. -/
def choice? {α : Type} (ofName? : String → Option α) : Toml → Option α
  | .string name => ofName? name
  | .table _ [(name, value)] => if value.isEmpty then ofName? name else none
  | _ => none

/-- A field that may be left out. -/
def orElse {α : Type} (view : Toml → Option α) (default : α) : Option Toml → Option α
  | none => some default
  | some value => view value

end Toml

namespace EngineSettings

def ofToml? (tree : Toml) : Option EngineSettings := do
  match ← tree.fields? ["max_loop_iterations", "max_snapshot_bytes", "trace_by_default"] with
  | [iterations, snapshot, traced] =>
    let defaults : EngineSettings := {}
    let maxIterations ← Toml.orElse Toml.asNat? defaults.maxIterations iterations
    let maxSnapshot ← Toml.orElse Toml.asNat? defaults.maxSnapshot snapshot
    let traceByDefault ← Toml.orElse Toml.asBool? defaults.traceByDefault traced
    some { maxIterations, maxSnapshot, traceByDefault }
  | _ => none

end EngineSettings

namespace DebugSettings

def ofToml? (tree : Toml) : Option DebugSettings := do
  match ← tree.fields? ["event_capacity", "pause_timeout_secs", "log_dir"] with
  | [capacity, timeout, directory] =>
    let defaults : DebugSettings := {}
    let eventCapacity ← Toml.orElse Toml.asNat? defaults.eventCapacity capacity
    let pauseTimeout ← Toml.orElse (fun tree => tree.asNat?.map some) none timeout
    let logDirectory ← Toml.orElse (fun tree => tree.asString?.map some) none directory
    some { eventCapacity, pauseTimeout, logDirectory }
  | _ => none

end DebugSettings

namespace TraceSettings

def ofToml? (tree : Toml) : Option TraceSettings := do
  match ← tree.fields? ["store", "db_path"] with
  | [backend, path] =>
    let defaults : TraceSettings := {}
    let backend ← Toml.orElse (Toml.choice? Backend.ofName?) defaults.backend backend
    let path ← Toml.orElse Toml.asString? defaults.path path
    some { backend, path }
  | _ => none

end TraceSettings

namespace Settings

def ofToml? (tree : Toml) : Option Settings := do
  match ← tree.fields? ["engine", "debug", "trace"] with
  | [engine, debug, trace] =>
    let engine ← Toml.orElse EngineSettings.ofToml? {} engine
    let debug ← Toml.orElse DebugSettings.ofToml? {} debug
    let trace ← Toml.orElse TraceSettings.ofToml? {} trace
    some { engine, debug, trace }
  | _ => none

def read (lookup : String → Option String) (text : String) : Except Fault Settings :=
  match (Toml.read? (Reference.expand lookup text)).bind ofToml? with
  | some settings => .ok settings
  | none => .error (.settings "<toml>")

def sectionText (name : String) (entries : List (String × Option String)) : String :=
  let lines := entries.filterMap fun (key, value) => value.map fun text => key ++ " = " ++ text ++ "\n"
  "[" ++ name ++ "]\n" ++ String.join lines

/-- The settings as a document. -/
def text (settings : Settings) : String :=
  let nat (n : Nat) : String := s!"{n}"
  let engine := sectionText "engine" [
    ("max_loop_iterations", nat settings.engine.maxIterations),
    ("max_snapshot_bytes", nat settings.engine.maxSnapshot),
    ("trace_by_default", if settings.engine.traceByDefault then "true" else "false")]
  let debug := sectionText "debug" [
    ("event_capacity", nat settings.debug.eventCapacity),
    ("pause_timeout_secs", settings.debug.pauseTimeout.map nat),
    ("log_dir", settings.debug.logDirectory.map Toml.quote)]
  let trace := sectionText "trace" [
    ("store", Toml.quote settings.trace.backend.name),
    ("db_path", Toml.quote settings.trace.path)]
  "\n".intercalate [engine, debug, trace]

/-- A path below a directory. An absolute path stands for itself. -/
def joinPath (directory path : String) : String :=
  match path.toList, directory.toList.getLast? with
  | '/' :: _, _ => path
  | _, none => path
  | _, some '/' => directory ++ path
  | _, some _ => directory ++ "/" ++ path

/-- Put the home directory in place of a leading `~/`, if there is one. -/
def expandHome (home : Option String) (path : String) : String :=
  match path.toList, home with
  | '~' :: '/' :: rest, some home => joinPath home (String.ofList rest)
  | _, _ => path

/-- The file of the trace table. -/
def tracePath (settings : Settings) (home : Option String) : String :=
  expandHome home settings.trace.path

def logDirectory? (settings : Settings) (home : Option String) : Option String :=
  settings.debug.logDirectory.map (expandHome home)

end Settings

end Pinflow
