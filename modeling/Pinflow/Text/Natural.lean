import Pinflow.Decimal.Bound

/-!
# Natural numbers as text
-/

namespace Pinflow.Text

/-- Decimal digits that fit 64 bits, with an optional plus sign. -/
def natural? (cs : List Char) : Option Nat :=
  let digits := match cs with
    | '+' :: rest => rest
    | _ => cs
  if digits ≠ [] ∧ digits.all Char.isDigit then
    let n := digits.foldl (fun n c => n * 10 + (c.toNat - '0'.toNat)) 0
    if n < unsignedBound then some n else none
  else none

end Pinflow.Text
