import Pinflow.Decimal.Layout
import Pinflow.Value.Basic

/-!
# JSON text of values

`Value.onto v rest` is the compact text of `v` followed by `rest`; `Value.render`
is the text alone. Keys come in the order of the fields, which is the byte order of
their UTF-8 text. `Value.pretty` is the same text spread over lines.
-/

namespace Pinflow

namespace Json

/-- Floats are positional from `0.00001` up to, not including, `10 ^ 16`. -/
def layout : Decimal.Layout := ⟨-5, 16⟩

/-- The two lower hexadecimal digits of a character code below 256. -/
def hexPair (n : Nat) : List Char :=
  [Nat.digitChar (n / 16), Nat.digitChar (n % 16)]

/-- A character inside quotes: only the quote, the backslash and control
characters are written differently from themselves. -/
def escapeChar (c : Char) : List Char :=
  match c with
  | '"' => ['\\', '"']
  | '\\' => ['\\', '\\']
  | '\n' => ['\\', 'n']
  | '\r' => ['\\', 'r']
  | '\t' => ['\\', 't']
  | '\x08' => ['\\', 'b']
  | '\x0c' => ['\\', 'f']
  | c => if c.toNat < 32 then ['\\', 'u', '0', '0'] ++ hexPair c.toNat else [c]

/-- A quoted string followed by `rest`. -/
def quoteOnto (s : String) (rest : List Char) : List Char :=
  '"' :: s.toList.foldr (fun c tail => escapeChar c ++ tail) ('"' :: rest)

def intOnto (i : Int) (rest : List Char) : List Char :=
  match i with
  | .ofNat n => Decimal.digitChars n ++ rest
  | .negSucc n => '-' :: Decimal.digitChars (n + 1) ++ rest

/-- A line break and the indentation of a nesting level. -/
def newline (level : Nat) : List Char := '\n' :: List.replicate (2 * level) ' '

end Json

namespace Value

open Json

mutual

/-- The compact text of a value, followed by `rest`. -/
def onto : Value → List Char → List Char
  | .null, rest => 'n' :: 'u' :: 'l' :: 'l' :: rest
  | .bool true, rest => 't' :: 'r' :: 'u' :: 'e' :: rest
  | .bool false, rest => 'f' :: 'a' :: 'l' :: 's' :: 'e' :: rest
  | .int i, rest => intOnto i rest
  | .float x, rest => layout.float x ++ rest
  | .str s, rest => quoteOnto s rest
  | .arr [], rest => '[' :: ']' :: rest
  | .arr (v :: vs), rest => '[' :: onto v (itemsOnto vs rest)
  | .obj [], rest => '{' :: '}' :: rest
  | .obj ((k, v) :: fields), rest => '{' :: quoteOnto k (':' :: onto v (fieldsOnto fields rest))
termination_by structural v => v

/-- The remaining items of an array, each after a comma, and its closing bracket. -/
def itemsOnto : List Value → List Char → List Char
  | [], rest => ']' :: rest
  | v :: vs, rest => ',' :: onto v (itemsOnto vs rest)
termination_by structural items => items

/-- The remaining fields of an object, each after a comma, and its closing brace. -/
def fieldsOnto : List (String × Value) → List Char → List Char
  | [], rest => '}' :: rest
  | (k, v) :: fields, rest => ',' :: quoteOnto k (':' :: onto v (fieldsOnto fields rest))
termination_by structural fields => fields

end

/-- The compact JSON text of a value. -/
def render (v : Value) : String := String.ofList (v.onto [])

mutual

/-- Indented text at a nesting level, followed by `rest`. -/
def prettyOnto : Value → Nat → List Char → List Char
  | .arr (v :: vs), level, rest =>
    '[' :: newline (level + 1) ++ prettyOnto v (level + 1) (prettyItems vs level rest)
  | .obj ((k, v) :: fields), level, rest =>
    '{' :: newline (level + 1) ++ quoteOnto k (':' :: ' ' ::
      prettyOnto v (level + 1) (prettyFields fields level rest))
  | .arr [], _, rest => '[' :: ']' :: rest
  | .obj [], _, rest => '{' :: '}' :: rest
  | .null, _, rest => onto .null rest
  | .bool b, _, rest => onto (.bool b) rest
  | .int i, _, rest => onto (.int i) rest
  | .float x, _, rest => onto (.float x) rest
  | .str s, _, rest => onto (.str s) rest
termination_by structural v => v

def prettyItems : List Value → Nat → List Char → List Char
  | [], level, rest => newline level ++ ']' :: rest
  | v :: vs, level, rest =>
    ',' :: newline (level + 1) ++ prettyOnto v (level + 1) (prettyItems vs level rest)
termination_by structural items => items

def prettyFields : List (String × Value) → Nat → List Char → List Char
  | [], level, rest => newline level ++ '}' :: rest
  | (k, v) :: fields, level, rest =>
    ',' :: newline (level + 1) ++ quoteOnto k (':' :: ' ' ::
      prettyOnto v (level + 1) (prettyFields fields level rest))
termination_by structural fields => fields

end

/-- The text of a value over several lines, two blanks per level. -/
def pretty (v : Value) : String := String.ofList (v.prettyOnto 0 [])

/-- A value as a line of output: a string as it is, anything else as JSON. -/
def display : Value → String
  | .str s => s
  | v => v.render

end Value

end Pinflow
