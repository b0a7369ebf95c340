import Pinflow.Decimal.Reading
import Pinflow.Json.Token
import Pinflow.Text.Words
import Pinflow.Time
import Pinflow.Toml.Basic

/-!
# TOML scalars

Strings of the four sorts, and the words that stand for numbers, truth values and
dates.
-/

namespace Pinflow.Toml

def isBlank (c : Char) : Bool := c == ' ' || c == '\t'

/-- A control character that may stand in no string and in no comment. A tab may. -/
def isControl (c : Char) : Bool := (c.toNat < 0x20 && c != '\t') || c.toNat == 0x7F

/-- Cut a string of one line at its closing quote. A quote behind a backslash does not
close. -/
def cutQuoted : List Char → Option (List Char × List Char)
  | [] => none
  | '"' :: rest => some ([], rest)
  | '\\' :: c :: rest => do
    let (raw, rest) ← cutQuoted rest
    some ('\\' :: c :: raw, rest)
  | c :: rest => do
    let (raw, rest) ← cutQuoted rest
    some (c :: raw, rest)

/-- Cut a string of several lines at its three closing quotes, given how many quotes
stand right before and whether a backslash does. Up to two more quotes belong to the
string. -/
def cutBlock (quote : Char) (escapes : Bool) : (quotes : Nat) → (behindBackslash : Bool) →
    List Char → Option (List Char × List Char)
  | quotes, _, [] =>
    if 3 ≤ quotes ∧ quotes ≤ 5 then some (List.replicate (quotes - 3) quote, []) else none
  | quotes, behindBackslash, c :: rest =>
    if c = quote ∧ !behindBackslash then cutBlock quote escapes (quotes + 1) false rest
    else if 3 ≤ quotes then
      if quotes ≤ 5 then some (List.replicate (quotes - 3) quote, c :: rest) else none
    else do
      let (raw, rest) ← cutBlock quote escapes 0 (escapes && !behindBackslash && c == '\\') rest
      some (List.replicate quotes quote ++ c :: raw, rest)

/-- The character of a code, if it is one. -/
def scalar? (digits : List Char) : Option Char := do
  let values ← digits.mapM Json.hexValue?
  let n := values.foldl (fun n d => n * 16 + d) 0
  if n.isValidChar then some (Char.ofNat n) else none

/-- The character of a backslash and a letter. -/
def escaped? : Char → Option Char
  | 'b' => some '\x08'
  | 't' => some '\t'
  | 'n' => some '\n'
  | 'f' => some '\x0c'
  | 'r' => some '\r'
  | '"' => some '"'
  | '\\' => some '\\'
  | _ => none

/-- Does the text begin with a line break? -/
def breaksLine : List Char → Bool
  | '\n' :: _ | '\r' :: '\n' :: _ => true
  | _ => false

/-- Resolve the escapes of a string. In a string of several lines a backslash at the
end of a line joins it to the next text: blanks and line breaks are then skipped. -/
def unescape (lines skipping : Bool) : List Char → Option (List Char)
  | [] => some []
  | '\\' :: 'u' :: a :: b :: c :: d :: rest => do
    let char ← scalar? [a, b, c, d]
    (unescape lines false rest).map (char :: ·)
  | '\\' :: 'U' :: a :: b :: c :: d :: e :: f :: g :: h :: rest => do
    let char ← scalar? [a, b, c, d, e, f, g, h]
    (unescape lines false rest).map (char :: ·)
  | '\\' :: c :: rest =>
    match escaped? c with
    | some char => (unescape lines false rest).map (char :: ·)
    | none =>
      if lines && breaksLine ((c :: rest).dropWhile isBlank) then unescape lines true (c :: rest)
      else none
  | c :: rest =>
    if c == '\r' then
      if lines && breaksLine (c :: rest) then unescape lines skipping rest else none
    else if skipping && (isBlank c || c == '\n') then unescape lines true rest
    else if isControl c && !(lines && c == '\n') then none
    else if c == '\\' then none
    else (unescape lines false rest).map (c :: ·)

/-- Drop a line break at the front. -/
def dropBreak : List Char → List Char
  | '\n' :: rest => rest
  | '\r' :: '\n' :: rest => rest
  | cs => cs

/-- The text of a literal string: only line breaks are made uniform. -/
def literal (lines : Bool) : List Char → Option (List Char)
  | [] => some []
  | c :: rest =>
    if c == '\r' then
      if lines && breaksLine (c :: rest) then literal lines rest else none
    else if isControl c && !(lines && c == '\n') then none
    else (literal lines rest).map (c :: ·)

/-- Read a string of any sort at the front of the text. Keys may not have several
lines. -/
def string? (lines : Bool) : List Char → Option (String × List Char)
  | '"' :: '"' :: '"' :: rest =>
    if lines then do
      let (raw, rest) ← cutBlock '"' true 0 false (dropBreak rest)
      let text ← unescape true false raw
      some (String.ofList text, rest)
    else none
  | '\'' :: '\'' :: '\'' :: rest =>
    if lines then do
      let (raw, rest) ← cutBlock '\'' false 0 false (dropBreak rest)
      let text ← literal true raw
      some (String.ofList text, rest)
    else none
  | '"' :: rest => do
    let (raw, rest) ← cutQuoted rest
    let text ← unescape false false raw
    some (String.ofList text, rest)
  | '\'' :: rest =>
    match rest.dropWhile (· != '\'') with
    | [] => none
    | _ :: behind => do
      let text ← literal false (rest.takeWhile (· != '\''))
      some (String.ofList text, behind)
  | _ => none

/-- Digits, of which each two may be parted by an underscore. -/
def grouped? (isDigit : Char → Bool) (cs : List Char) : Option (List Char) :=
  let groups := Text.splitAll '_' cs
  if groups.all fun group => !group.isEmpty && group.all isDigit then some groups.flatten else none

/-- The number that digits of a base stand for. -/
def natOf (base : Nat) (digits : List Char) : Nat :=
  digits.foldl (fun n c => n * base + (Json.hexValue? c).getD 0) 0

/-- The digits of a whole decimal number: no zero in front of others. -/
def decimal? (cs : List Char) : Option (List Char) := do
  let digits ← grouped? Char.isDigit cs
  match digits with
  | '0' :: _ :: _ => none
  | _ => some digits

def splitSign : List Char → Bool × List Char
  | '-' :: rest => (true, rest)
  | '+' :: rest => (false, rest)
  | cs => (false, cs)

/-- An integer of 64 bits. -/
def integer? (word : List Char) : Option Int :=
  let based (base : Nat) (isDigit : Char → Bool) (rest : List Char) : Option Int := do
    let digits ← grouped? isDigit rest
    let n := natOf base digits
    if n < signedBound then some n else none
  match word with
  | '0' :: 'x' :: rest => based 16 (fun c => (Json.hexValue? c).isSome) rest
  | '0' :: 'o' :: rest => based 8 (fun c => '0' ≤ c && c ≤ '7') rest
  | '0' :: 'b' :: rest => based 2 (fun c => c == '0' || c == '1') rest
  | _ => do
    let (negative, rest) := splitSign word
    let digits ← decimal? rest
    let n := natOf 10 digits
    if negative then
      if n ≤ signedBound then some (-(n : Int)) else none
    else if n < signedBound then some n else none

/-- Is this the exponent of a float, behind its letter? -/
def isExponent (cs : List Char) : Bool := (grouped? Char.isDigit (splitSign cs).2).isSome

/-- Is the word a float? A number too large for one is not. -/
def isFloat (word : List Char) : Bool :=
  let (_, rest) := splitSign word
  if rest == ['i', 'n', 'f'] || rest == ['n', 'a', 'n'] then true
  else
    let isMark (c : Char) : Bool := c == 'e' || c == 'E'
    let mantissa := rest.takeWhile fun c => !isMark c
    let behind := rest.dropWhile fun c => !isMark c
    let exponentFits := match behind with
      | [] => true
      | _ :: exponent => isExponent exponent
    let whole := mantissa.takeWhile (· != '.')
    let fractionFits := match mantissa.dropWhile (· != '.') with
      | [] => !behind.isEmpty
      | _ :: fraction => (grouped? Char.isDigit fraction).isSome
    let tooLarge := (Decimal.float? (word.filter (· != '_'))).any fun x => x.isInf && 0.0 < x
    (decimal? whole).isSome && fractionFits && exponentFits && !tooLarge

/-- A number of exactly so many digits at the front, within bounds. -/
def digits? (width least most : Nat) (cs : List Char) : Option (Nat × List Char) :=
  let front := cs.take width
  let n := natOf 10 front
  if front.length = width ∧ front.all Char.isDigit ∧ least ≤ n ∧ n ≤ most then
    some (n, cs.drop width)
  else none

/-- Cut off one character. -/
def mark? (mark : Char) : List Char → Option (List Char)
  | c :: rest => if c = mark then some rest else none
  | [] => none

/-- A calendar date at the front of the text. -/
def fullDate? (cs : List Char) : Option (List Char) := do
  let (year, cs) ← digits? 4 0 9999 cs
  let cs ← mark? '-' cs
  let (month, cs) ← digits? 2 1 12 cs
  let cs ← mark? '-' cs
  let (_, cs) ← digits? 2 1 (Instant.daysInMonth year month) cs
  some cs

/-- A time of day at the front of the text. -/
def partialTime? (cs : List Char) : Option (List Char) := do
  let (_, cs) ← digits? 2 0 23 cs
  let cs ← mark? ':' cs
  let (_, cs) ← digits? 2 0 59 cs
  let cs ← mark? ':' cs
  let (_, cs) ← digits? 2 0 60 cs
  match cs with
  | '.' :: d :: rest => if d.isDigit then some (rest.dropWhile Char.isDigit) else none
  | _ => some cs

/-- Is this nothing, or an offset from universal time? -/
def isOffset : List Char → Bool
  | [] | ['Z'] | ['z'] => true
  | c :: rest =>
    (c == '+' || c == '-') && (do
      let (_, cs) ← digits? 2 0 23 rest
      let cs ← mark? ':' cs
      let (_, cs) ← digits? 2 0 59 cs
      some cs) == some []

/-- Is the text behind a date a time with an optional offset? -/
def isTimeOfDate (cs : List Char) : Bool := (partialTime? cs).any isOffset

def isDate (word : List Char) : Bool :=
  match fullDate? word with
  | some [] => true
  | some (c :: rest) => (c == 'T' || c == 't') && isTimeOfDate rest
  | none => partialTime? word == some []

/-- The characters of words. -/
def isWordChar (c : Char) : Bool :=
  c.isAlphanum || c == '_' || c == '+' || c == '-' || c == '.' || c == ':'

/-- The value of a word. -/
def word? (word : List Char) : Option Toml :=
  match word with
  | ['t', 'r', 'u', 'e'] => some (.boolean true)
  | ['f', 'a', 'l', 's', 'e'] => some (.boolean false)
  | _ =>
    match integer? word with
    | some i => some (.integer i)
    | none =>
      if isFloat word then some (.float (String.ofList word))
      else if isDate word then some (.date (String.ofList word))
      else none

/-- Read a word at the front of the text. A blank may stand between a date and the time
that belongs to it. -/
def scalarWord? (cs : List Char) : Option (Toml × List Char) :=
  let word := cs.takeWhile isWordChar
  let rest := cs.dropWhile isWordChar
  match fullDate? word, rest with
  | some [], ' ' :: c :: behind =>
    if c.isDigit then
      let time := (c :: behind).takeWhile isWordChar
      if isTimeOfDate time then
        some (.date (String.ofList (word ++ ' ' :: time)), (c :: behind).dropWhile isWordChar)
      else none
    else some (.date (String.ofList word), rest)
  | _, _ => (word? word).map (·, rest)

end Pinflow.Toml
