/-!
# Stored doubles

A double as it is kept in a record: its 64-bit pattern. `Float` identifies all
patterns that are not a number; a record that is packed, sent and unpacked has
to come back pattern for pattern, so records hold `Binary64` and arithmetic
passes through `toFloat`.
-/

namespace StellarWind

/-- A double-precision value by its 64-bit pattern. -/
structure Binary64 where
  bits : UInt64
deriving DecidableEq, Inhabited

namespace Binary64

/-- The pattern of a value that was given; `store` is for values that were computed. -/
def ofFloat (x : Float) : Binary64 := ⟨x.toBits⟩

def toFloat (x : Binary64) : Float := Float.ofBits x.bits

def zero : Binary64 := ⟨0⟩

def infinity : Binary64 := ⟨0x7ff0000000000000⟩

/-- Equality of values, not of patterns: the zeros agree and a pattern that is
not a number differs from everything. -/
def agrees (x y : Binary64) : Bool := x.toFloat == y.toFloat

end Binary64

end StellarWind
