/-!
# Shortest decimals

The decimal with the fewest digits among those that lie in the rounding interval
of a binary number, and of those the nearest one. A binary number `m * 2 ^ q` is
what every real between `m * 2 ^ q` and half a unit below and above rounds to; the
ends belong to the interval when `m` is even. All comparisons are between natural
numbers.
-/

namespace Pinflow.Decimal

/-- A positive binary number `mantissa * 2 ^ exponent`. At a power of two the gap
below is half the gap above: such a number is `narrow`. -/
structure Binary where
  mantissa : Nat
  exponent : Int
  narrow : Bool

structure Scientific where
  digits : Nat
  exponent : Int
deriving DecidableEq

namespace Binary

/-- A float has 52 bits of fraction. -/
abbrev fractionBound : Nat := 4503599627370496

/-- The size of a finite float, from its bits. -/
def ofFloat (x : Float) : Binary :=
  let bits := x.toBits.toNat
  let fraction := bits % fractionBound
  let biased : Nat := bits / fractionBound % 2048
  if biased = 0 then ⟨fraction, -1074, false⟩
  else ⟨fractionBound + fraction, Int.ofNat biased - 1075, fraction == 0 && 1 < biased⟩

/-- Factors that bring `d * 10 ^ k` and `u * 2 ^ (exponent - 2)` to one scale: the
first multiplies `d`, the second `u`. -/
def scales (b : Binary) (k : Int) : Nat × Nat :=
  let q := b.exponent - 2
  (Nat.pow 10 k.toNat * Nat.pow 2 (-q).toNat, Nat.pow 2 q.toNat * Nat.pow 10 (-k).toNat)

/-- Does `d * 10 ^ k` lie in the rounding interval? -/
def admits (b : Binary) (k : Int) (d : Nat) : Bool :=
  let (a, c) := b.scales k
  let low := (4 * b.mantissa - if b.narrow then 1 else 2) * c
  let high := (4 * b.mantissa + 2) * c
  if b.mantissa % 2 = 0 then low ≤ d * a && d * a ≤ high
  else low < d * a && d * a < high

/-- Of the two multiples of `10 ^ k` around the number, the one to write: the only
one in the interval, else the nearer, else the even one. -/
def onGrid? (b : Binary) (k : Int) : Option Nat :=
  let (a, c) := b.scales k
  let value := 4 * b.mantissa * c
  let below := value / a
  match b.admits k below, b.admits k (below + 1) with
  | false, false => none
  | true, false => some below
  | false, true => some (below + 1)
  | true, true =>
    let down := value - below * a
    let up := (below + 1) * a - value
    if down < up then some below
    else if up < down then some (below + 1)
    else if below % 2 = 0 then some below else some (below + 1)

/-- The least `e` with the number below `10 ^ e`, found from its binary length. -/
def magnitude (b : Binary) : Int :=
  let length : Int := Nat.log2 (4 * b.mantissa) + (b.exponent - 2)
  let start := length * 30103 / 100000
  let fits (e : Int) : Bool :=
    let (a, c) := b.scales e
    4 * b.mantissa * c < a
  if fits start then start
  else if fits (start + 1) then start + 1
  else start + 2

end Binary

namespace Scientific

def stripZeros : Nat → Scientific → Scientific
  | 0, s => s
  | fuel + 1, s =>
    if s.digits ≠ 0 ∧ s.digits % 10 = 0 then
      stripZeros fuel ⟨s.digits / 10, s.exponent + 1⟩
    else s

end Scientific

/-- The shortest decimal of a positive binary number. Seventeen digits always
suffice. -/
def shortest (b : Binary) : Scientific :=
  let e := b.magnitude
  let found := (List.range 17).findSome? fun (i : Nat) =>
    let k := e - (i + 1)
    (b.onGrid? k).map fun d => Scientific.mk d k
  Scientific.stripZeros 20 (found.getD ⟨0, 0⟩)

end Pinflow.Decimal
