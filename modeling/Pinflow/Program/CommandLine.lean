import Pinflow.Text.Natural
import Pinflow.Text.Words

/-!
# The command line

Options come as `--name value`, `--name=value`, `-n value` or `-nvalue`; everything
behind `--` is a plain word. A line is read from left to right, and the first thing
wrong with it, or the first request for help, ends the reading.
-/

namespace Pinflow

/-- What the program is asked to do. -/
inductive Task where
  | validate (graph : String)
  | run (graph entry : String) (args event : Option String) (trace : Bool)
      (breakpoints : List String)
  | replay (trace : String)
  | traces (graph : String) (limit : Nat)
  | config

/-- A command line that asks for work. Without a path the settings are where they
usually are. -/
structure CommandLine where
  config : Option String
  task : Task

/-- Why a command line asks for no work. -/
inductive Halt where
  | misuse
  | version
  | help
  | completions
deriving DecidableEq

namespace CommandLine

/-- An option: its names, whether it takes a value and may come again, and which values
it takes. -/
structure Switch where
  long : String
  short : Option Char := none
  takesValue : Bool := true
  repeats : Bool := false
  accepts : String → Bool := fun _ => true
  halt : Option Halt := none

/-- The options and the plain words that have been read, in reverse. -/
structure Found where
  values : List (String × String) := []
  words : List String := []

namespace Found

def value? (found : Found) (name : String) : Option String :=
  (found.values.find? fun entry => entry.1 == name).map Prod.snd

def has (found : Found) (name : String) : Bool := (found.value? name).isSome

def values? (found : Found) (name : String) : List String :=
  (found.values.reverse.filter fun entry => entry.1 == name).map Prod.snd

end Found

def isPath (text : String) : Bool := !text.isEmpty

def isNatural (text : String) : Bool := (Text.natural? text.toList).isSome

def looksLikeOption (word : String) : Bool :=
  match word.toList with
  | '-' :: _ :: _ => true
  | _ => false

def take (option : Switch) (value : String) (found : Found) : Except Halt Found :=
  if !option.accepts value then .error .misuse
  else if found.has option.long && !option.repeats then .error .misuse
  else .ok { found with values := (option.long, value) :: found.values }

/-- Take in an option without a value. -/
def takeFlag (option : Switch) (found : Found) : Except Halt Found :=
  match option.halt with
  | some halt => .error halt
  | none => take option "" found

/-- What a word of options asks for: nothing more, or the value of an option, which is
the next word. -/
inductive Pending where
  | nothing (found : Found)
  | value (option : Switch) (found : Found)

/-- Read the letters of a word behind a single dash. -/
def readShort (options : List Switch) (found : Found) : List Char → Except Halt Pending
  | [] => .ok (.nothing found)
  | c :: rest =>
    match options.find? fun option => option.short == some c with
    | none => .error .misuse
    | some option =>
      if option.takesValue then
        match rest with
        | [] => .ok (.value option found)
        | '=' :: value => (take option (String.ofList value) found).map .nothing
        | value => (take option (String.ofList value) found).map .nothing
      else do
        let found ← takeFlag option found
        readShort options found rest

/-- Read a word behind two dashes. -/
def readLong (options : List Switch) (found : Found) (word : List Char) : Except Halt Pending :=
  let (name, value) := match Text.splitFirst? '=' word with
    | some (name, value) => (name, some (String.ofList value))
    | none => (word, none)
  match options.find? fun option => option.long == String.ofList name with
  | none => .error .misuse
  | some option =>
    match option.takesValue, value with
    | true, some value => (take option value found).map .nothing
    | true, none => .ok (.value option found)
    | false, none => (takeFlag option found).map .nothing
    | false, some _ => .error .misuse

def readOption (options : List Switch) (found : Found) (word : String) : Except Halt Pending :=
  match word.toList with
  | '-' :: '-' :: rest => readLong options found rest
  | '-' :: rest => readShort options found rest
  | _ => .error .misuse

/-- Take in a plain word, of which there is one for each test. -/
def takeWord (accepts : List (String → Bool)) (found : Found) (word : String) :
    Except Halt Found :=
  match accepts[found.words.length]? with
  | some accepts =>
    if accepts word then .ok { found with words := word :: found.words } else .error .misuse
  | none => .error .misuse

/-- Read the words of a command. `pending` is an option whose value comes next. -/
def scan (options : List Switch) (accepts : List (String → Bool)) :
    (pending : Option Switch) → Found → List String → Except Halt Found
  | none, found, [] => .ok found
  | some _, _, [] => .error .misuse
  | some option, found, word :: rest =>
    if looksLikeOption word then .error .misuse
    else do
      let found ← take option word found
      scan options accepts none found rest
  | none, found, "--" :: rest => rest.foldlM (takeWord accepts) found
  | none, found, word :: rest =>
    if looksLikeOption word then do
      match ← readOption options found word with
      | .nothing found => scan options accepts none found rest
      | .value option found => scan options accepts (some option) found rest
    else do
      let found ← takeWord accepts found word
      scan options accepts none found rest

/-- Read the words before the command. What comes back is the name of the command and
the words behind it. -/
def scanTop (options : List Switch) :
    (pending : Option Switch) → Found → List String → Except Halt (Found × String × List String)
  | _, _, [] => .error .misuse
  | some option, found, word :: rest =>
    if looksLikeOption word then .error .misuse
    else do
      let found ← take option word found
      scanTop options none found rest
  | none, found, word :: rest =>
    if word == "--" then .error .misuse
    else if looksLikeOption word then do
      match ← readOption options found word with
      | .nothing found => scanTop options none found rest
      | .value option found => scanTop options (some option) found rest
    else .ok (found, word, rest)

def helpOption : Switch :=
  { long := "help", short := some 'h', takesValue := false, halt := some .help }

def versionOption : Switch :=
  { long := "version", short := some 'V', takesValue := false, halt := some .version }

def configOption : Switch := { long := "config", short := some 'c', accepts := isPath }

def runOptions : List Switch := [
  helpOption,
  { long := "entry", short := some 'e' },
  { long := "args" },
  { long := "event" },
  { long := "trace", takesValue := false },
  { long := "break", short := some 'b', repeats := true }]

/-- How many traces are listed unless a limit is given. -/
def defaultLimit : Nat := 20

def commandNames : List String :=
  ["validate", "run", "replay", "traces", "config", "completions", "help"]

def shells : List String := ["bash", "elvish", "fish", "powershell", "zsh"]

def readTask (name : String) (rest : List String) : Except Halt Task :=
  match name with
  | "validate" => do
    let found ← scan [helpOption] [isPath] none {} rest
    match found.words with
    | [graph] => .ok (.validate graph)
    | _ => .error .misuse
  | "run" => do
    let found ← scan runOptions [isPath] none {} rest
    match found.words, found.value? "entry" with
    | [graph], some entry =>
      .ok (.run graph entry (found.value? "args") (found.value? "event") (found.has "trace")
        (found.values? "break"))
    | _, _ => .error .misuse
  | "replay" => do
    let found ← scan [helpOption] [fun _ => true] none {} rest
    match found.words with
    | [trace] => .ok (.replay trace)
    | _ => .error .misuse
  | "traces" => do
    let found ← scan [helpOption, { long := "limit", accepts := isNatural }] [fun _ => true] none {}
      rest
    let limit := ((found.value? "limit").bind fun text => Text.natural? text.toList).getD
      defaultLimit
    match found.words with
    | [graph] => .ok (.traces graph limit)
    | _ => .error .misuse
  | "config" => do
    let _ ← scan [helpOption] [] none {} rest
    .ok .config
  | "completions" => do
    let found ← scan [helpOption] [shells.contains] none {} rest
    .error (if found.words.isEmpty then .misuse else .completions)
  | "help" =>
    match rest with
    | [] => .error .help
    | [name] => .error (if commandNames.contains name then .help else .misuse)
    | _ => .error .misuse
  | _ => .error .misuse

/-- Read a command line. `fromEnvironment` is the path of the settings that the
environment gives; it counts if the line gives none. -/
def read (fromEnvironment : Option String) (words : List String) : Except Halt CommandLine := do
  let (found, name, rest) ← scanTop [helpOption, versionOption, configOption] none {} words
  let task ← readTask name rest
  match found.value? "config", fromEnvironment with
  | some path, _ => .ok ⟨some path, task⟩
  | none, some path => if isPath path then .ok ⟨some path, task⟩ else .error .misuse
  | none, none => .ok ⟨none, task⟩

end CommandLine

end Pinflow
