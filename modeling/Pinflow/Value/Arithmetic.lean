import Pinflow.Decimal.Bound
import Pinflow.Decimal.Shortest
import Pinflow.Value.Basic

/-!
# Arithmetic

The operators of math nodes on floats, and the value a float result becomes: an
integer when it is whole and 64 bits hold it.
-/

namespace Pinflow

inductive Arithmetic where
  | add
  | sub
  | mul
  | div
  | min
  | max
deriving DecidableEq

namespace Arithmetic

def ofName? : String → Option Arithmetic
  | "add" | "+" => some .add
  | "sub" | "-" => some .sub
  | "mul" | "*" => some .mul
  | "div" | "/" => some .div
  | "min" => some .min
  | "max" => some .max
  | _ => none

/-- Apply an operator; nothing divides by zero. The smaller and the larger of two
numbers disregard an operand that is no number. -/
def result? (op : Arithmetic) (x y : Float) : Option Float :=
  match op with
  | .add => some (x + y)
  | .sub => some (x - y)
  | .mul => some (x * y)
  | .div => if y == 0.0 then none else some (x / y)
  | .min => some (if x.isNaN then y else if y.isNaN then x else if y < x then y else x)
  | .max => some (if x.isNaN then y else if y.isNaN then x else if x < y then y else x)

end Arithmetic

/-- The integer a finite float is equal to. -/
def wholePart? (x : Float) : Option Int :=
  let b := Decimal.Binary.ofFloat x
  let unit := Nat.pow 2 (-b.exponent).toNat
  if b.mantissa % unit = 0 then
    let size := Int.ofNat (b.mantissa / unit * Nat.pow 2 b.exponent.toNat)
    some (if x < 0.0 then -size else size)
  else none

/-- The value of a result; nothing for a result that is not finite. -/
def Value.ofFloat? (x : Float) : Option Value :=
  if x.isFinite then
    match wholePart? x with
    | some i => if i.natAbs < signedBound then some (.int i) else some (.float x)
    | none => some (.float x)
  else none

end Pinflow
