import Pinflow.Files.Volume
import Pinflow.Program.Host

/-!
# Rehearsals

A host without a process: its files, its input and its environment are values, and
what the program writes is collected. Every run of the program on such a host is a
function of what the host held at the start.
-/

namespace Pinflow

/-- A host as a value. Dates and ids are made from a count. -/
structure Rehearsal where
  files : Volume := {}
  input : List String := []
  output : String := ""
  errors : String := ""
  environment : List (String × String) := []
  count : Nat := 0

namespace Rehearsal

/-- The value of a variable of the environment. -/
def lookup? (host : Rehearsal) (name : String) : Option String :=
  (host.environment.find? fun entry => entry.1 == name).map Prod.snd

def id (n : Nat) : String :=
  let digits := Nat.toDigits 10 n
  "00000000-0000-4000-8000-" ++ String.ofList (List.replicate (12 - digits.length) '0' ++ digits)

/-- The n-th date, to the nanosecond as clocks tell it. -/
def date (n : Nat) : Instant := { day := 19723 + n / 86400, second := n % 86400, nano := 123456789 }

/-- Answer a question of the program. -/
def answer : (q : HostQuery) → StateM Rehearsal q.Answer
  | .print text => modify fun host => { host with output := host.output ++ text }
  | .report text => modify fun host => { host with errors := host.errors ++ text }
  | .readLine => do
    let host ← get
    match host.input with
    | [] => return none
    | line :: rest =>
      set { host with input := rest }
      return some line
  | .hasPath path => return (← get).files.contains (.ofText path)
  | .readFile path => return (← get).files.text? (.ofText path)
  | .writeFile path text => do
    let host ← get
    match host.files.write (.ofText path) text with
    | .ok files =>
      set { host with files }
      return true
    | .error _ => return false
  | .makeDirectories path => do
    let host ← get
    let (files, fault) := host.files.makeDirectories (.ofText path)
    set { host with files }
    return fault
  | .environment name => return (← get).lookup? name
  | .freshId => do
    let host ← get
    set { host with count := host.count + 1 }
    return id host.count
  | .now => do
    let host ← get
    set { host with count := host.count + 1 }
    return date host.count

/-- The lines of a text, of which `line` has been read in reverse so far. -/
def linesFrom (line : List Char) : List Char → List String
  | [] => if line.isEmpty then [] else [String.ofList line.reverse]
  | '\n' :: cs => String.ofList line.reverse :: linesFrom [] cs
  | c :: cs => linesFrom (c :: line) cs

def lines (text : String) : List String := linesFrom [] text.toList

def run {α : Type} (host : Rehearsal) (program : Program α) : α × Rehearsal :=
  StateT.run (program.interpret answer) host

end Rehearsal

end Pinflow
