import Pinflow.Console.Command
import Pinflow.Desk.Basic
import Pinflow.Program.Failure
import Pinflow.Trace.Line
import Pinflow.Trace.Player

/-!
# Prompts

The conversation with a person at the debug prompt and at the replay prompt. Each
takes a bound on the number of lines it reads; at the bound it behaves as at the end
of the input.
-/

namespace Pinflow

namespace Console

/-- The name under which the console watches the debugger. -/
def subscriber : String := "console"

/-- A pause that the person at the prompt has been told about. -/
structure Pause where
  session : String
  snapshot : Value

/-- Tell the person about an event. -/
def tell (event : Event) : Program Unit :=
  match event.news with
  | .paused _ node snapshot =>
    let hits := (snapshot.field? "hit_count").getD .null
    Program.reportLine
      (s!"\n[paused at {node} (hit " ++ hits.render ++ s!")] session {event.session}")
  | .resumed => Program.reportLine "[resumed]"
  | .completed => Program.reportLine "[completed]"
  | .stopped => Program.reportLine "[stopped]"
  | .error message => Program.reportLine s!"[error: {message}]"

def lastPause? (events : List Event) : Option Pause :=
  events.reverse.findSome? fun event =>
    match event.news with
    | .paused _ _ snapshot => some ⟨event.session, snapshot⟩
    | _ => none

/-- Tell everything that has happened to a graph. -/
def catchUp (graph : String) (desk : Desk) : Program (Option Pause × Desk) := do
  let debugger := desk.world.debugger
  let (events, channel) := debugger.channel.collect subscriber graph
  events.forM tell
  return (lastPause? events, desk.withDebugger { debugger with channel })

def breakpointLine (breakpoint : Breakpoint) : String :=
  let condition := match breakpoint.condition with
    | some condition => condition.source
    | none => "-"
  let enabled := if breakpoint.enabled then "true" else "false"
  s!"  {breakpoint.node} enabled={enabled} hits={breakpoint.hits} if {condition}"

/-- Do what a command says. A pause is over when a command ends it. -/
def obey (graph : String) (pause : Pause) (desk : Desk) :
    DebugCommand → Attempt (Bool × Desk)
  | .resume overrides =>
    match desk.resume pause.session overrides with
    | (.ok (), desk) => return (true, desk)
    | (.error fault, _) => throw (.fault fault)
  | .stop =>
    match desk.stop pause.session with
    | (.ok (), desk) => return (true, desk)
    | (.error fault, _) => throw (.fault fault)
  | .break node condition =>
    match desk.world.debugger.setBreakpoint graph node condition with
    | .ok debugger => do
      Program.reportLine s!"breakpoint set on {node}"
      return (false, desk.withDebugger debugger)
    | .error fault => do
      Program.reportLine fault.message
      return (false, desk)
  | .clear node => do
    let (removed, debugger) := desk.world.debugger.removeBreakpoint graph node
    if !removed then Program.reportLine s!"no breakpoint on {node}"
    return (false, desk.withDebugger debugger)
  | .list => do
    (desk.world.debugger.breakpoints.ofGraph graph).forM fun breakpoint =>
      Program.reportLine (breakpointLine breakpoint)
    return (false, desk)
  | .vars => do
    Program.reportLine pause.snapshot.pretty
    return (false, desk)
  | .help => do
    Program.report DebugCommand.guide
    return (false, desk)

/-- Take one line, or the end of the input, which stops the invocation. -/
def answer (graph : String) (pause : Pause) (desk : Desk) (line : Option String) :
    Attempt (Bool × Desk) := do
  match line with
  | none => obey graph pause desk .stop
  | some "" => return (false, desk)
  | some line =>
    match DebugCommand.parse line with
    | .ok command => obey graph pause desk command
    | .error misread => do
      Program.reportLine misread.message
      return (false, desk)

/-- Attend to an invocation until it is not paused any more. -/
def attend (graph : String) : (lines : Nat) → Pause → Desk → Attempt Desk
  | 0, pause, desk => do
    let (_, desk) ← obey graph pause desk .stop
    return desk
  | lines + 1, pause, desk => do
    let line ← Program.readLine "debug> "
    let (answered, desk) ← answer graph pause desk line
    if answered then
      match ← catchUp graph desk with
      | (some pause, desk) => attend graph lines pause desk
      | (none, desk) => return desk
    else attend graph lines pause desk

/-- Attend to an invocation from its start. -/
def debug (graph : String) (lines : Nat) (desk : Desk) : Attempt Desk := do
  match ← catchUp graph desk with
  | (some pause, desk) => attend graph lines pause desk
  | (none, desk) => return desk

/-- Move a player as a command says; nothing is left to do after the last command. -/
def move (player : Player) : ReplayCommand → Option (Option Step × Player)
  | .next => some player.forward
  | .previous => some player.backward
  | .seek position => some (player.seek position)
  | .quit => none

/-- Step through a trace. -/
def step : (lines : Nat) → Player → Program Unit
  | 0, _ => return
  | lines + 1, player => do
    match ← Program.readLine "replay> " with
    | none => return
    | some line =>
      match ReplayCommand.parse line with
      | .error misread =>
        Program.reportLine misread.message
        step lines player
      | .ok command =>
        match move player command with
        | none => return
        | some (some step', player) =>
          Program.printLine step'.text
          step lines player
        | some (none, player) =>
          Program.reportLine s!"(no step there; at #{player.position} of {player.size})"
          step lines player

/-- Show a trace and step through it. -/
def replay (lines : Nat) (trace : Trace) : Program Unit := do
  trace.heading.forM Program.printLine
  let player : Player := { trace }
  match player.current? with
  | none => return
  | some first =>
    Program.printLine first.text
    step lines player

end Console

end Pinflow
