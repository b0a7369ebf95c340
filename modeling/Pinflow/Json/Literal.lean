import Pinflow.Decimal.Bound
import Pinflow.Value.Number

/-!
# Number literals

A literal is cut into sign, whole digits, fraction digits and exponent. Without
fraction and exponent it is an integer when 64 bits hold it. Every other literal is
a float read in two roundings: its leading digits, as many as 64 bits hold, become
a float, which is then scaled by one power of ten. A literal too large for a float
denotes nothing.
-/

namespace Pinflow.Json

/-- A number literal, cut into its parts. -/
structure Literal where
  negative : Bool
  whole : List Char
  fraction : Option (List Char)
  exponent : Option (Bool × List Char)

def digitValue (c : Char) : Nat := c.toNat - '0'.toNat

namespace Literal

/-- At least one digit, and nothing else. -/
def digits? (cs : List Char) : Option (List Char) :=
  if cs ≠ [] ∧ cs.all Char.isDigit then some cs else none

/-- The exponent part, after its letter: an optional sign and digits. -/
def exponent? : List Char → Option (Bool × List Char)
  | '-' :: cs => (digits? cs).map (true, ·)
  | '+' :: cs => (digits? cs).map (false, ·)
  | cs => (digits? cs).map (false, ·)

/-- Cut a literal. A leading zero stands alone, and each part that is announced
has digits. -/
def ofChars? (cs : List Char) : Option Literal := do
  let (negative, cs) := match cs with
    | '-' :: rest => (true, rest)
    | _ => (false, cs)
  let whole ← digits? (cs.takeWhile Char.isDigit)
  if whole.length > 1 ∧ whole.head? = some '0' then none
  let cs := cs.dropWhile Char.isDigit
  let (fraction, cs) ← match cs with
    | '.' :: rest => do
      let fraction ← digits? (rest.takeWhile Char.isDigit)
      some (some fraction, rest.dropWhile Char.isDigit)
    | _ => some (none, cs)
  match cs with
  | [] => some ⟨negative, whole, fraction, none⟩
  | e :: rest =>
    if e = 'e' ∨ e = 'E' then do
      let exponent ← exponent? rest
      some ⟨negative, whole, fraction, some exponent⟩
    else none

def natOfDigits (cs : List Char) : Nat :=
  cs.foldl (fun n c => n * 10 + digitValue c) 0

/-- Take digits into a number while 64 bits hold it; the second part counts the
digits left over. -/
def takeWhole : List Char → Nat → Nat × Nat
  | [], n => (n, 0)
  | c :: cs, n =>
    let m := n * 10 + digitValue c
    if m < unsignedBound then takeWhole cs m else (n, cs.length + 1)

/-- Append fraction digits while 64 bits hold the number; the second part counts
the digits taken. -/
def takeFraction : List Char → Nat → Nat → Nat × Nat
  | [], n, taken => (n, taken)
  | c :: cs, n, taken =>
    let m := n * 10 + digitValue c
    if m < unsignedBound then takeFraction cs m (taken + 1) else (n, taken)

def powerOfTen (n : Nat) : Float := Float.ofScientific 1 false n

/-- Scale by a power of ten. Powers beyond the largest one a float holds are
divided out in pieces, which reach zero within the fuel. -/
def scale : Nat → Float → Int → Option Float
  | 0, _, _ => some 0.0
  | fuel + 1, x, e =>
    if e.natAbs ≤ 308 then
      if 0 ≤ e then
        let y := x * powerOfTen e.natAbs
        if y.isInf then none else some y
      else some (x / powerOfTen e.natAbs)
    else if x == 0.0 then some x
    else if 0 ≤ e then none
    else scale fuel (x / powerOfTen 308) (e + 308)

def float? (l : Literal) : Option Float :=
  let (whole, left) := takeWhole l.whole 0
  let (significand, taken) := takeFraction (l.fraction.getD []) whole 0
  let start : Int := (left : Int) - taken
  let size := match l.exponent with
    | none => scale 4 significand.toUInt64.toFloat start
    | some (negative, digits) =>
      let e := natOfDigits digits
      if e < 2147483648 then
        scale 4 significand.toUInt64.toFloat (if negative then start - e else start + e)
      else if significand ≠ 0 ∧ !negative then none
      else some 0.0
  size.map fun x => if l.negative then -x else x

def number? (l : Literal) : Option Number :=
  let n := natOfDigits l.whole
  if l.fraction.isNone ∧ l.exponent.isNone then
    if l.negative then
      if 0 < n ∧ n ≤ signedBound then some (.int (-n)) else l.float?.map .float
    else if n < unsignedBound then some (.int n) else l.float?.map .float
  else l.float?.map .float

end Literal

end Pinflow.Json
