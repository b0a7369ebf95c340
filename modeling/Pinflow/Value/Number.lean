import Pinflow.Value.Basic

/-!
# Numbers

The two sorts of number a value can hold, and the float each of them stands for.
-/

namespace Pinflow

/-- A number as a literal or a value gives it. -/
inductive Number where
  | int (i : Int)
  | float (x : Float)

/-- The float nearest to an integer of at most 64 bits. -/
def floatOfInt : Int → Float
  | .ofNat n => n.toUInt64.toFloat
  | .negSucc n => -(n + 1).toUInt64.toFloat

namespace Number

def toFloat : Number → Float
  | .int i => floatOfInt i
  | .float x => x

def toValue : Number → Value
  | .int i => .int i
  | .float x => .float x

end Number

namespace Value

def asNumber? : Value → Option Number
  | .int i => some (.int i)
  | .float x => some (.float x)
  | _ => none

/-- The float a numeric value stands for. -/
def asFloat? (v : Value) : Option Float := v.asNumber?.map Number.toFloat

end Value

end Pinflow
