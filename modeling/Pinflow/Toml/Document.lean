import Pinflow.Toml.Scalar

/-!
# TOML documents

A document is a sequence of lines: headers that open tables, and entries that go into
the table opened last. Values may nest, within a bound.

Loops over the text carry a count that starts at its length; every round uses up at
least one character, so the count never runs out first.
-/

namespace Pinflow.Toml

/-- A reader that takes something off the front of the text. -/
abbrev Scanner := StateT (List Char) Option

namespace Scanner

/-- The rest of the text. -/
def rest : Scanner (List Char) := get

def skipBlanks : Scanner Unit := modify (·.dropWhile isBlank)

/-- Take one given character. -/
def char (c : Char) : Scanner Unit := do
  let rest ← mark? c (← get)
  set rest

/-- Go to the end of the line, past a comment if there is one. -/
def comment : Scanner Unit := do
  match ← get with
  | '#' :: cs =>
    let isText (c : Char) : Bool := c != '\n' && c != '\r'
    if (cs.takeWhile isText).any isControl then failure
    set (cs.dropWhile isText)
  | _ => return

def lineBreak : Scanner Unit := do
  let cs ← get
  if breaksLine cs then set (dropBreak cs) else failure

def lineEnd : Scanner Unit := do
  skipBlanks
  comment
  if (← get).isEmpty then return else lineBreak

def skipLines : Nat → Scanner Unit
  | 0 => return
  | count + 1 => do
    skipBlanks
    comment
    if breaksLine (← get) then
      lineBreak
      skipLines count

/-- Take a string. -/
def string (lines : Bool) : Scanner String := do
  let (s, rest) ← string? lines (← get)
  set rest
  return s

def isBareChar (c : Char) : Bool := c.isAlphanum || c == '_' || c == '-'

/-- One part of a key, bare or quoted. -/
def simpleKey : Scanner String := do
  match ← get with
  | '"' :: _ | '\'' :: _ => string false
  | cs =>
    let key := cs.takeWhile isBareChar
    if key.isEmpty then failure
    set (cs.dropWhile isBareChar)
    return String.ofList key

/-- The parts of a key behind the first one. -/
def moreKeys : Nat → Scanner (List String)
  | 0 => failure
  | count + 1 => do
    skipBlanks
    match ← get with
    | '.' :: cs =>
      set cs
      skipBlanks
      let key ← simpleKey
      let keys ← moreKeys count
      return key :: keys
    | _ => return []

/-- How many parts a key may have, and how deep values may nest. -/
def maxNesting : Nat := 79

def key : Scanner (List String × String) := do
  let first ← simpleKey
  let more ← moreKeys ((← get).length + 1)
  let parts := first :: more
  if maxNesting < parts.length then failure
  return (parts.dropLast, parts.getLastD first)

/-- The items of an array up to its closing bracket. A comma may stand behind the last
one. -/
def items (item : Scanner Toml) : Nat → Scanner (List Toml)
  | 0 => failure
  | count + 1 => do
    skipLines (count + 1)
    match ← get with
    | ']' :: cs =>
      set cs
      return []
    | _ =>
      let first ← item
      skipLines (count + 1)
      match ← get with
      | ',' :: cs =>
        set cs
        let more ← items item count
        return first :: more
      | ']' :: cs =>
        set cs
        return [first]
      | _ => failure

/-- The entries of an inline table up to its closing brace, all on one line. -/
def pairs (item : Scanner Toml) : Nat → Scanner (List (List String × String × Toml))
  | 0 => failure
  | count + 1 => do
    skipBlanks
    let (path, last) ← key
    skipBlanks
    char '='
    skipBlanks
    let value ← item
    skipBlanks
    match ← get with
    | ',' :: cs =>
      set cs
      let more ← pairs item count
      return (path, last, value) :: more
    | '\x7d' :: cs =>
      set cs
      return [(path, last, value)]
    | _ => failure

/-- An inline table behind its opening brace. -/
def inlineTable (item : Scanner Toml) : Scanner Toml := do
  skipBlanks
  match ← get with
  | '\x7d' :: cs =>
    set cs
    return .table .inline []
  | cs =>
    let pairs ← pairs item cs.length
    Toml.inlineTable pairs

/-- A value that is no container. -/
def scalar : Scanner Toml := do
  match ← get with
  | '"' :: _ | '\'' :: _ => return .string (← string true)
  | cs =>
    let (value, rest) ← scalarWord? cs
    set rest
    return value

/-- A value in which at most so many containers are nested. -/
def value : Nat → Scanner Toml
  | 0 => scalar
  | depth + 1 => do
    match ← get with
    | '[' :: cs =>
      set cs
      return .array (← items (value depth) (cs.length + 1))
    | '\x7b' :: cs =>
      set cs
      inlineTable (value depth)
    | _ => scalar

/-- A line that says something. -/
inductive Statement where
  | table (path : List String) (key : String)
  | tables (path : List String) (key : String)
  | entry (path : List String) (key : String) (value : Toml)

/-- A line that says something. -/
def statement : Scanner Statement := do
  match ← get with
  | '[' :: '[' :: cs =>
    set cs
    skipBlanks
    let (path, last) ← key
    skipBlanks
    char ']'
    char ']'
    lineEnd
    return .tables path last
  | '[' :: cs =>
    set cs
    skipBlanks
    let (path, last) ← key
    skipBlanks
    char ']'
    lineEnd
    return .table path last
  | _ =>
    let (path, last) ← key
    skipBlanks
    char '='
    skipBlanks
    let value ← value maxNesting
    lineEnd
    return .entry path last value

/-- All lines of a text. -/
def statements : Nat → Scanner (List Statement)
  | 0 => failure
  | count + 1 => do
    skipLines (count + 1)
    if (← get).isEmpty then return []
    let first ← statement
    let more ← statements count
    return first :: more

end Scanner

open Scanner (Statement)

/-- A document under construction and the table that entries go to. -/
structure Draft where
  root : Toml := .table .header []
  current : List String := []

/-- Take in one line. -/
def Draft.add (draft : Draft) : Statement → Option Draft
  | .table path key => do
    let root ← draft.root.openTable path key
    some ⟨root, path ++ [key]⟩
  | .tables path key => do
    let root ← draft.root.openTables path key
    some ⟨root, path ++ [key]⟩
  | .entry path key value => do
    let root ← draft.root.update false
      (fun origin entries => (Toml.table origin entries).addEntry path key value) draft.current
    some { draft with root }

/-- Read a document. A byte order mark in front of it is skipped. -/
def read? (text : String) : Option Toml := do
  let cs := match text.toList with
    | '\uFEFF' :: rest => rest
    | cs => cs
  let (statements, _) ← (Scanner.statements (cs.length + 1)).run cs
  let draft ← statements.foldlM Draft.add {}
  some draft.root

end Pinflow.Toml
