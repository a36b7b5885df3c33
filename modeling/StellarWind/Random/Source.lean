import StellarWind.Fault
import StellarWind.Number.Count

/-!
# Random values

A source gives one 32-bit word after the other. Everything else is drawn from
words: a double in a range, a choice among few, a chance. A range that is empty
or has no end is a fault, and then no word is drawn.
-/

namespace StellarWind

/-- A source of 32-bit words. -/
class RandomSource (γ : Type) where
  next : γ → UInt32 × γ

/-- A computation that draws from a source; what was drawn before a fault stays
drawn. -/
abbrev Draw (γ : Type) := ExceptT Fault (StateM γ)

namespace Draw

variable {γ : Type} [RandomSource γ]

def word : Draw γ UInt32 := ExceptT.mk fun g =>
  let (w, g') := RandomSource.next g
  (.ok w, g')

/-- Two words as one number, the low word first. -/
def wide : Draw γ UInt64 := do
  let low ← word
  let high ← word
  return low.toUInt64 ||| (high.toUInt64 <<< 32)

/-- Whether a range of doubles has values and an extent. -/
def isRange (closed : Bool) (a b : Float) : Bool :=
  (if closed then a ≤ b else a < b) && a.isFinite && b.isFinite && (b - a).isFinite

def uniform (closed : Bool) (a b : Float) : Draw γ Float := do
  if isRange closed a b then
    let bits ← wide
    let part := Float.ofBits ((bits >>> 12) ||| 0x3ff0000000000000) - 1
    return part * (b - a) + a
  else throw .emptyRange

/-- A number below `n`, for small `n`. The high word of the product is the number;
a second word decides the cases in which the low word may carry into it. -/
def below (n : Nat) : Draw γ Nat := do
  let product := (← word).toNat * n
  let low := product % Count.range32
  if Count.range32 - n < low then
    let carry := (← word).toNat * n / Count.range32
    return product / Count.range32 + if Count.range32 ≤ low + carry then 1 else 0
  else return product / Count.range32

/-- A chance of `threshold` in `2 ^ 64`. -/
def chance (threshold : UInt64) : Draw γ Bool := do
  return (← wide) < threshold

end Draw

end StellarWind
