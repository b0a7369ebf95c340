import Pinflow.Json.Record
import Pinflow.Settings.Basic

/-!
# Settings as JSON records

A section of settings is a record whose fields all have defaults. Settings as a whole
are written as a record of their sections.
-/

namespace Pinflow

open Json

namespace EngineSettings

def reader : Reader EngineSettings :=
  .record [.defaulted "max_loop_iterations", .defaulted "max_snapshot_bytes",
      .defaulted "trace_by_default"]
    fun depth slots =>
      match slots with
      | [iterations, snapshot, traced] => do
        let defaults : EngineSettings := {}
        let maxIterations ← Reader.nat.orElse defaults.maxIterations depth iterations
        let maxSnapshot ← Reader.nat.orElse defaults.maxSnapshot depth snapshot
        let traceByDefault ← Reader.bool.orElse defaults.traceByDefault depth traced
        some { maxIterations, maxSnapshot, traceByDefault }
      | _ => none

def ofValue? (value : Value) : Option EngineSettings := reader maxDepth (.ofValue value)

end EngineSettings

namespace DebugSettings

def reader : Reader DebugSettings :=
  .record [.defaulted "event_capacity", .defaulted "pause_timeout_secs", .defaulted "log_dir"]
    fun depth slots =>
      match slots with
      | [capacity, timeout, directory] => do
        let defaults : DebugSettings := {}
        let eventCapacity ← Reader.nat.orElse defaults.eventCapacity depth capacity
        let pauseTimeout ← (Reader.optional .nat).orElse none depth timeout
        let logDirectory ← (Reader.optional .string).orElse none depth directory
        some { eventCapacity, pauseTimeout, logDirectory }
      | _ => none

def ofValue? (value : Value) : Option DebugSettings := reader maxDepth (.ofValue value)

end DebugSettings

namespace Settings

def toValue (settings : Settings) : Value :=
  let timeout : Value := match settings.debug.pauseTimeout with
    | some seconds => .ofNat seconds
    | none => .null
  let directory : Value := match settings.debug.logDirectory with
    | some directory => .str directory
    | none => .null
  .object [
    ("engine", .object [("max_loop_iterations", .ofNat settings.engine.maxIterations),
      ("max_snapshot_bytes", .ofNat settings.engine.maxSnapshot),
      ("trace_by_default", .bool settings.engine.traceByDefault)]),
    ("debug", .object [("event_capacity", .ofNat settings.debug.eventCapacity),
      ("pause_timeout_secs", timeout), ("log_dir", directory)]),
    ("trace", .object [("store", .str settings.trace.backend.name),
      ("db_path", .str settings.trace.path)])]

end Settings

end Pinflow
