import StellarWind.Number.Count

/-!
# Doubles taken apart, and decimals

`Exact` is what a bit pattern stands for: a finite value is `m * 2 ^ q` with a
sign. `Decimal` is `c * 10 ^ e`. The ratio of the two scales is a fraction of
natural numbers, so that every comparison of a binary with a decimal value is
one of natural numbers.
-/

namespace StellarWind

/-- The meaning of a double. -/
inductive Exact where
  | notANumber
  | infinite (negative : Bool)
  /-- The value `m * 2 ^ q`, or its opposite. -/
  | finite (negative : Bool) (m : Nat) (q : Int)
deriving DecidableEq, Repr

namespace Exact

/-- The implicit leading bit of a normal value, `2 ^ 52`. -/
def hiddenBit : Nat := 4503599627370496

/-- The exponent of the last place of a subnormal value. -/
def leastExponent : Int := -1074

def ofFloat (x : Float) : Exact :=
  let bits := x.toBits.toNat
  let negative := Count.positive64 ≤ bits
  let field := bits / hiddenBit % 2048
  let fraction := bits % hiddenBit
  if field == 2047 then
    if fraction == 0 then infinite negative else notANumber
  else if field == 0 then finite negative fraction leastExponent
  else finite negative (hiddenBit + fraction) (leastExponent + field - 1)

end Exact

/-- The decimal `coefficient * 10 ^ exponent`. -/
structure Decimal where
  coefficient : Nat
  exponent : Int
deriving DecidableEq, Repr

namespace Decimal

/-- The decimal digits of a number, without leading zeros except for zero itself. -/
def digits (n : Nat) : List Char := Nat.toDigits 10 n

/-- The exponent of the leading digit. -/
def leading (d : Decimal) : Int := d.exponent + (digits d.coefficient).length - 1

/-- Drop the zeros at the end of the coefficient, at most `fuel` of them. -/
def trimUpTo : Nat → Decimal → Decimal
  | 0, d => d
  | fuel + 1, d =>
    if d.coefficient % 10 == 0 && d.coefficient != 0 then
      trimUpTo fuel ⟨d.coefficient / 10, d.exponent + 1⟩
    else d

def trim (d : Decimal) : Decimal := trimUpTo (digits d.coefficient).length d

end Decimal

/-- The part of `b ^ e` that is a numerator. -/
def powerNumerator (b : Nat) (e : Int) : Nat := Nat.pow b e.toNat

def powerDenominator (b : Nat) (e : Int) : Nat := Nat.pow b (-e).toNat

/-- The exponent of the leading decimal digit of `n / d`, for positive `n` and `d`. -/
def leadingExponent (n d : Nat) : Int :=
  if d ≤ n then (Decimal.digits (n / d)).length - 1
  else
    let k := (Decimal.digits (d / n)).length
    if d ≤ n * Nat.pow 10 (k - 1) then -((k : Int) - 1) else -(k : Int)

def Exact.leadingDecimal (m : Nat) (q : Int) : Int :=
  leadingExponent (m * powerNumerator 2 q) (powerDenominator 2 q)

end StellarWind
