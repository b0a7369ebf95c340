import Pinflow.Json.Raw
import Pinflow.Text.Natural
import Pinflow.Text.Words

/-!
# Commands of the debug prompt
-/

namespace Pinflow

/-- A line typed at the debug prompt. -/
inductive DebugCommand where
  | resume (overrides : List (String × Value))
  | stop
  | break (node : String) (condition : Option String)
  | clear (node : String)
  | list
  | vars
  | help

/-- Why a line is no command. -/
inductive DebugMisread where
  | noAssignment (word : String)
  | emptyPath (word : String)
  | breakUsage
  | clearUsage
  | unknown (word : String)

def DebugMisread.message : DebugMisread → String
  | noAssignment word => s!"expected path=value, got '{word}'"
  | emptyPath word => s!"empty path in '{word}'"
  | breakUsage => "usage: break <node> [condition]"
  | clearUsage => "usage: clear <node>"
  | unknown word => s!"unknown command '{word}', try 'help'"

namespace DebugCommand

/-- Read `path=value`. The value is JSON if it reads so, and otherwise a string. -/
def override (word : List Char) : Except DebugMisread (String × Value) :=
  match Text.splitFirst? '=' word with
  | none => .error (.noAssignment (String.ofList word))
  | some ([], _) => .error (.emptyPath (String.ofList word))
  | some (path, raw) =>
    let raw := String.ofList raw
    .ok (String.ofList path, (Value.read? raw).getD (.str raw))

/-- Read a node and an optional condition. -/
def breakAt (rest : List Char) : Except DebugMisread DebugCommand :=
  match Text.splitWord rest with
  | ([], _) => .error .breakUsage
  | (node, condition) =>
    let condition := (condition.map Text.trim).filter fun text => !text.isEmpty
    .ok (.break (String.ofList node) (condition.map String.ofList))

/-- Read a line. -/
def parse (line : String) : Except DebugMisread DebugCommand :=
  let (head, rest) := Text.splitWord (Text.trim line.toList)
  let rest := Text.trim (rest.getD [])
  match String.ofList head with
  | "resume" | "r" | "c" => do
    let overrides ← (Text.words rest).mapM override
    .ok (.resume overrides)
  | "stop" | "s" => .ok .stop
  | "break" | "b" => breakAt rest
  | "clear" => if rest.isEmpty then .error .clearUsage else .ok (.clear (String.ofList rest))
  | "list" | "l" => .ok .list
  | "vars" | "v" => .ok .vars
  | "help" | "h" | "?" => .ok .help
  | other => .error (.unknown other)

/-- What the prompt says about its commands. -/
def guide : String :=
  "resume [path=json ...]   continue, optionally overriding variables\n" ++
  "  stop                     abort this invocation\n" ++
  "  break <node> [condition] set a breakpoint (condition: path OP literal)\n" ++
  "  clear <node>             remove a breakpoint\n" ++
  "  list                     show breakpoints\n" ++
  "  vars                     show the paused context\n"

end DebugCommand

/-- A line typed at the replay prompt. -/
inductive ReplayCommand where
  | next
  | previous
  | seek (position : Nat)
  | quit

/-- Why a line is no command. -/
inductive ReplayMisread where
  | seekUsage
  | unknown (word : String)

def ReplayMisread.message : ReplayMisread → String
  | seekUsage => "usage: seek <step>"
  | unknown word => s!"unknown command '{word}' (n, p, seek N, q)"

namespace ReplayCommand

/-- Read a line. An empty line goes on to the next step. -/
def parse (line : String) : Except ReplayMisread ReplayCommand :=
  match (Text.words line.toList).map String.ofList with
  | [] => .ok .next
  | word :: rest =>
    match word with
    | "n" | "next" => .ok .next
    | "p" | "prev" => .ok .previous
    | "q" | "quit" => .ok .quit
    | "seek" | "s" =>
      match rest.head?.bind fun number => Text.natural? number.toList with
      | some position => .ok (.seek position)
      | none => .error .seekUsage
    | other => .error (.unknown other)

end ReplayCommand

end Pinflow
