import Pinflow.Decimal.Reading
import Pinflow.Value.Number

/-!
# Loose views of values

Conditions take any value for a truth value, and arithmetic takes numeric strings
and truth values for numbers.
-/

namespace Pinflow.Value

/-- Null, false, zero and everything empty count as false. -/
def truthy : Value → Bool
  | .null => false
  | .bool b => b
  | .int i => floatOfInt i != 0.0
  | .float x => x != 0.0
  | .str s => s != ""
  | .arr items => !items.isEmpty
  | .obj fields => !fields.isEmpty

/-- The number a value can be taken for. -/
def toFloat? : Value → Option Float
  | .int i => some (floatOfInt i)
  | .float x => some x
  | .bool b => some (if b then 1.0 else 0.0)
  | .str s => Decimal.float? (Text.trim s.toList)
  | _ => none

end Pinflow.Value
