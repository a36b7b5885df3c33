import StellarWind.Decimal.Exact

/-!
# Rounding to a given number of digits

The exact value of a double, rounded to a number of significant digits or to a
number of decimal places. A half goes to the even neighbour.
-/

namespace StellarWind

/-- The quotient `n / d` rounded to the nearest, a half to the even one. -/
def roundDiv (n d : Nat) : Nat :=
  let quotient := n / d
  let rest := n % d
  if 2 * rest < d then quotient
  else if d < 2 * rest then quotient + 1
  else quotient + quotient % 2

namespace Exact

def roundedAt (m : Nat) (q p : Int) : Nat :=
  roundDiv (m * powerNumerator 2 q * powerDenominator 10 p)
    (powerNumerator 10 p * powerDenominator 2 q)

/-- The value `m * 2 ^ q` with one leading digit and `places` more. -/
def significant (places m : Nat) (q : Int) : Decimal :=
  if m == 0 then ⟨0, -places⟩
  else
    let p := leadingDecimal m q - places
    let c := roundedAt m q p
    if c == Nat.pow 10 (places + 1) then ⟨Nat.pow 10 places, p + 1⟩ else ⟨c, p⟩

end Exact

end StellarWind
