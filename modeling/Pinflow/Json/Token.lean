import Pinflow.Json.Literal

/-!
# JSON tokens

Text is cut into brackets, separators, words, number literals and quoted strings.
Blanks are the space, the tab and the two line breaks. A number that no value can
hold and a string with an unpaired surrogate are kept as `none`: they are well
written, and an error only where their value is asked for.
-/

namespace Pinflow.Json

inductive Token where
  | openBrace
  | closeBrace
  | openBracket
  | closeBracket
  | colon
  | comma
  | null
  | bool (b : Bool)
  | number (n : Option Number)
  | text (s : Option String)

/-- A piece of a quoted string: a character, or the code unit of an escape. -/
inductive Piece where
  | char (c : Char)
  | unit (code : Nat)

def hexValue? (c : Char) : Option Nat :=
  if c.isDigit then some (c.toNat - '0'.toNat)
  else if 'a' ≤ c ∧ c ≤ 'f' then some (c.toNat - 'a'.toNat + 10)
  else if 'A' ≤ c ∧ c ≤ 'F' then some (c.toNat - 'A'.toNat + 10)
  else none

def hexUnit? (a b c d : Char) : Option Nat := do
  let a ← hexValue? a
  let b ← hexValue? b
  let c ← hexValue? c
  let d ← hexValue? d
  some (((a * 16 + b) * 16 + c) * 16 + d)

/-- The character a one-letter escape stands for. -/
def escaped? : Char → Option Char
  | '"' => some '"'
  | '\\' => some '\\'
  | '/' => some '/'
  | 'b' => some '\x08'
  | 'f' => some '\x0c'
  | 'n' => some '\n'
  | 'r' => some '\r'
  | 't' => some '\t'
  | _ => none

/-- The pieces of the text between two quotes. Control characters must be escaped. -/
def pieces? : List Char → Option (List Piece)
  | [] => some []
  | '\\' :: 'u' :: a :: b :: c :: d :: rest => do
    let code ← hexUnit? a b c d
    let pieces ← pieces? rest
    some (.unit code :: pieces)
  | '\\' :: c :: rest => do
    let c ← escaped? c
    let pieces ← pieces? rest
    some (.char c :: pieces)
  | c :: rest =>
    if c = '\\' ∨ c.toNat < 32 then none
    else do
      let pieces ← pieces? rest
      some (.char c :: pieces)

def isHighSurrogate (n : Nat) : Bool := 0xD800 ≤ n && n < 0xDC00

def isLowSurrogate (n : Nat) : Bool := 0xDC00 ≤ n && n < 0xE000

/-- Join surrogate pairs; a surrogate without its partner is no character. -/
def joinPieces? : List Piece → Option (List Char)
  | [] => some []
  | .char c :: rest => (joinPieces? rest).map (c :: ·)
  | .unit high :: .unit low :: rest =>
    if isHighSurrogate high && isLowSurrogate low then
      (joinPieces? rest).map
        (Char.ofNat (0x10000 + (high - 0xD800) * 0x400 + (low - 0xDC00)) :: ·)
    else if isHighSurrogate high || isLowSurrogate high then none
    else (joinPieces? (.unit low :: rest)).map (Char.ofNat high :: ·)
  | .unit n :: rest =>
    if isHighSurrogate n || isLowSurrogate n then none
    else (joinPieces? rest).map (Char.ofNat n :: ·)

def quoted? (body : List Char) : Option Token :=
  (pieces? body).map fun pieces => .text ((joinPieces? pieces).map String.ofList)

def word? : List Char → Option Token
  | ['n', 'u', 'l', 'l'] => some .null
  | ['t', 'r', 'u', 'e'] => some (.bool true)
  | ['f', 'a', 'l', 's', 'e'] => some (.bool false)
  | _ => none

def isBlank (c : Char) : Bool := c = ' ' || c = '\t' || c = '\n' || c = '\r'

def isNumberChar (c : Char) : Bool :=
  c.isDigit || c = '-' || c = '+' || c = '.' || c = 'e' || c = 'E'

def punctuation? : Char → Option Token
  | '{' => some .openBrace
  | '}' => some .closeBrace
  | '[' => some .openBracket
  | ']' => some .closeBracket
  | ':' => some .colon
  | ',' => some .comma
  | _ => none

/-- The token being read: none, a word, a number, or a quoted string whose last
character was a backslash or not. What was read of it stands in reverse. -/
inductive Reading where
  | idle
  | word (seen : List Char)
  | number (seen : List Char)
  | quoted (seen : List Char) (escaping : Bool)

namespace Reading

/-- End a word or a number. A quoted string has to be closed. -/
def close? : Reading → Option (List Token)
  | .idle => some []
  | .word seen => (word? seen.reverse).map ([·])
  | .number seen => (Literal.ofChars? seen.reverse).map fun l => [.number l.number?]
  | .quoted .. => none

/-- Start a token with a character that continues none. -/
def start? (c : Char) : Option (List Token × Reading) :=
  if isBlank c then some ([], .idle)
  else if c = '"' then some ([], .quoted [] false)
  else if c.isDigit || c = '-' then some ([], .number [c])
  else if c.isLower then some ([], .word [c])
  else (punctuation? c).map fun token => ([token], .idle)

/-- Read one character: the tokens that are now complete, and the one being read. -/
def next? (reading : Reading) (c : Char) : Option (List Token × Reading) :=
  match reading with
  | .idle => start? c
  | .word seen =>
    if c.isLower then some ([], .word (c :: seen))
    else do
      let done ← (Reading.word seen).close?
      let (tokens, reading) ← start? c
      some (done ++ tokens, reading)
  | .number seen =>
    if isNumberChar c then some ([], .number (c :: seen))
    else do
      let done ← (Reading.number seen).close?
      let (tokens, reading) ← start? c
      some (done ++ tokens, reading)
  | .quoted seen true => some ([], .quoted (c :: seen) false)
  | .quoted seen false =>
    if c = '\\' then some ([], .quoted (c :: seen) true)
    else if c = '"' then (quoted? seen.reverse).map fun token => ([token], .idle)
    else some ([], .quoted (c :: seen) false)

end Reading

/-- Cut text into tokens; those already found stand in reverse. -/
def tokensFrom? (reading : Reading) (found : List Token) : List Char → Option (List Token)
  | [] => reading.close?.map fun tokens => (tokens.reverse ++ found).reverse
  | c :: cs =>
    match reading.next? c with
    | none => none
    | some (tokens, reading) => tokensFrom? reading (tokens.reverse ++ found) cs

def tokens? (cs : List Char) : Option (List Token) := tokensFrom? .idle [] cs

end Pinflow.Json
