/-!
# Counts

The ranges of counts that are kept in words of a fixed size.
-/

namespace StellarWind

namespace Count

/-- The number of values of a word of 32 bits, `2 ^ 32`. -/
def range32 : Nat := 4294967296

/-- The number of non-negative values of a signed word of 32 bits, `2 ^ 31`. -/
def positive32 : Nat := 2147483648

/-- The number of values of a word of 64 bits, `2 ^ 64`. -/
def range64 : Nat := 18446744073709551616

/-- The number of non-negative values of a signed word of 64 bits, `2 ^ 63`. -/
def positive64 : Nat := 9223372036854775808

end Count

end StellarWind
