/-!
# Bounds of whole numbers

Whole numbers are kept in 64 bits, with a sign or without one.
-/

namespace Pinflow

/-- A signed number lies below this bound, `2 ^ 63`, and not below its negative. -/
abbrev signedBound : Nat := 9223372036854775808

/-- An unsigned number lies below this bound, `2 ^ 64`. -/
abbrev unsignedBound : Nat := 18446744073709551616

end Pinflow
