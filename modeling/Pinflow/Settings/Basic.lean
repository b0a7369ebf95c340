/-!
# Settings

What a user can set: the limits of the engine, the debugger, and where traces are
kept. Everything has a default.
-/

namespace Pinflow

structure EngineSettings where
  /-- How often the body of a single while loop may run. -/
  maxIterations : Nat := 1000
  /-- How many bytes of text a recorded value may have. -/
  maxSnapshot : Nat := 16384
  /-- Record a trace unless a request says otherwise. -/
  traceByDefault : Bool := false

structure DebugSettings where
  /-- How many events the channel keeps. -/
  eventCapacity : Nat := 256
  /-- How many seconds a paused invocation waits for a command. -/
  pauseTimeout : Option Nat := none
  /-- Where to keep logs of debug events. -/
  logDirectory : Option String := none

/-- Where traces are kept. -/
inductive Backend where
  | memory
  | table
deriving DecidableEq

namespace Backend

def name : Backend → String
  | memory => "memory"
  | table => "sqlite"

def ofName? : String → Option Backend
  | "memory" => some memory
  | "sqlite" => some table
  | _ => none

end Backend

structure TraceSettings where
  backend : Backend := .memory
  /-- The file of the table, for the backend that has one. -/
  path : String := "botgraph-traces.db"

structure Settings where
  engine : EngineSettings := {}
  debug : DebugSettings := {}
  trace : TraceSettings := {}

end Pinflow
