import Pinflow.Decimal.Bound
import Pinflow.Decimal.Shortest

/-!
# Layout of decimals

How a decimal is spelled: positionally while its leading digit stands at one of a
range of powers of ten, with an exponent otherwise.
-/

namespace Pinflow.Decimal

/-- The decimal digits of a number, most significant first. -/
def digitChars (n : Nat) : List Char := Nat.toDigits 10 n

/-- Where positional notation begins and ends: numbers whose leading digit stands
for a power of ten from `least` up to, not including, `below`. -/
structure Layout where
  least : Int
  below : Int

namespace Layout

/-- Spell a positive decimal. Positional text keeps at least one fraction digit, and
an exponent always carries its sign. -/
def spell (layout : Layout) (s : Scientific) : List Char :=
  let digits := digitChars s.digits
  let point := s.exponent + digits.length
  let leading := point - 1
  if layout.least ≤ leading ∧ leading < layout.below then
    if 0 ≤ s.exponent then digits ++ List.replicate s.exponent.toNat '0' ++ ['.', '0']
    else if 0 < point then digits.take point.toNat ++ '.' :: digits.drop point.toNat
    else '0' :: '.' :: List.replicate (-point).toNat '0' ++ digits
  else
    let mantissa := match digits with
      | [d] => [d]
      | d :: rest => d :: '.' :: rest
      | [] => []
    let sign := if leading < 0 then '-' else '+'
    mantissa ++ 'e' :: sign :: digitChars leading.natAbs

/-- Spell a finite float. A zero keeps its sign. -/
def float (layout : Layout) (x : Float) : List Char :=
  let negative := signedBound ≤ x.toBits.toNat
  let size := if x == 0.0 then ['0', '.', '0'] else layout.spell (shortest (.ofFloat x))
  if negative then '-' :: size else size

end Layout

end Pinflow.Decimal
