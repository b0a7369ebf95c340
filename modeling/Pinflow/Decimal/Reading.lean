import Pinflow.Text.Blank

/-!
# Reading decimals

The float nearest to a decimal text. A sign is optional, and so are the digits on
one side of the point; the words for infinity and for no number are read in either
case. A text too large for a float is infinite.
-/

namespace Pinflow.Decimal

/-- The float nearest to `digits * 10 ^ exponent`, where `length` is the number of
digits. Decimals far outside the range of floats are decided by their magnitude. -/
def nearest (digits length : Nat) (exponent : Int) : Float :=
  if digits = 0 then 0.0
  else if 400 < length + exponent then Float.ofScientific 1 false 400
  else if length + exponent < -400 then 0.0
  else Float.ofScientific digits (exponent < 0) exponent.natAbs

def natOfDigits (cs : List Char) : Nat :=
  cs.foldl (fun n c => n * 10 + (c.toNat - '0'.toNat)) 0

/-- A sign and what follows it. -/
def splitSign : List Char → Bool × List Char
  | '-' :: cs => (true, cs)
  | '+' :: cs => (false, cs)
  | cs => (false, cs)

/-- The exponent at the end of a decimal text; nothing stands for zero. -/
def exponent? : List Char → Option Int
  | [] => some 0
  | e :: cs =>
    if e = 'e' ∨ e = 'E' then
      let (negative, digits) := splitSign cs
      if digits ≠ [] ∧ digits.all Char.isDigit then
        let n : Int := natOfDigits digits
        some (if negative then -n else n)
      else none
    else none

/-- A decimal text without sign. -/
def magnitude? (cs : List Char) : Option Float := do
  let whole := cs.takeWhile Char.isDigit
  let cs := cs.dropWhile Char.isDigit
  let (fraction, cs) := match cs with
    | '.' :: rest => (rest.takeWhile Char.isDigit, rest.dropWhile Char.isDigit)
    | _ => ([], cs)
  if whole = [] ∧ fraction = [] then none
  let exponent ← exponent? cs
  let digits := (whole ++ fraction).dropWhile (· == '0')
  some (nearest (natOfDigits digits) digits.length (exponent - fraction.length))

/-- Read a float. -/
def float? (cs : List Char) : Option Float :=
  let (negative, cs) := splitSign cs
  let size := match String.ofList (cs.map Char.toLower) with
    | "inf" | "infinity" => some (1.0 / 0.0)
    | "nan" => some (0.0 / 0.0)
    | _ => magnitude? cs
  size.map fun x => if negative then -x else x

end Pinflow.Decimal
