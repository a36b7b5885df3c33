import StellarWind.Number.Binary64

/-!
# Functions on doubles

The elementary functions come from the platform, and so does the pattern of a
result that is not a number. Every definition that needs one takes the class
`Elementary`, so that what is said about it holds whatever the last digit of a
logarithm is. The class `Addition` does the same for running sums.
-/

namespace StellarWind

/-! ### What the platform provides -/

/-- The elementary functions on doubles. -/
class Elementary where
  log : Float → Float
  log10 : Float → Float
  exp : Float → Float
  pow : Float → Float → Float
  sin : Float → Float
  cos : Float → Float
  atan2 : Float → Float → Float
  hypot : Float → Float → Float
  /-- The pattern of a result that is not a number. -/
  nan : Binary64
  isNaN_nan : nan.toFloat.isNaN = true

def infinity : Float := Float.ofBits 0x7ff0000000000000

/-- A power of two by its exponent field. -/
def powerOfTwo (e : Int) : Float := Float.ofBits ((e + 1023).toNat.toUInt64 <<< 52)

/-- The square root of `x ^ 2 + y ^ 2`. An infinite side makes the result
infinite whatever the other side is. Sides outside the range where squares are
safe are scaled by a power of two first, and a side that is too short to count
is only added. -/
def hypotenuse (x y : Float) : Float :=
  let a := x.abs
  let b := y.abs
  if a == infinity || b == infinity then infinity
  else
    let long := if a < b then b else a
    let short := if a < b then a else b
    if short ≤ long * powerOfTwo (-60) then long + short
    else if powerOfTwo 500 < long then
      let l := long * powerOfTwo (-600)
      let s := short * powerOfTwo (-600)
      (l * l + s * s).sqrt * powerOfTwo 600
    else if short < powerOfTwo (-400) then
      let l := long * powerOfTwo 600
      let s := short * powerOfTwo 600
      (l * l + s * s).sqrt * powerOfTwo (-600)
    else (long * long + short * short).sqrt

instance Elementary.platform : Elementary where
  log := Float.log
  log10 := Float.log10
  exp := Float.exp
  pow := Float.pow
  sin := Float.sin
  cos := Float.cos
  atan2 := Float.atan2
  hypot := hypotenuse
  nan := ⟨0xfff8000000000000⟩
  isNaN_nan := by decide +kernel

/-- The pattern of a computed value. -/
def Binary64.store [Elementary] (x : Float) : Binary64 :=
  if x.isNaN then Elementary.nan else .ofFloat x

instance [Elementary] : Coe Float Binary64 := ⟨Binary64.store⟩

/-- How a running sum goes on. -/
class Addition where
  plus : Binary64 → Binary64 → Binary64

instance Addition.platform [Elementary] : Addition where
  plus x y := .store (x.toFloat + y.toFloat)

/-! ### Constants and comparisons -/

def pi : Float := 3.14159265358979323846

def sqrtTwo : Float := 1.41421356237309504880

/-- The smaller of two values. A value that is not a number gives way to the
other one, and of equal values the second is taken. -/
def least (x y : Float) : Float :=
  if y.isNaN then x else if x < y then x else y

def greatest (x y : Float) : Float :=
  if y.isNaN then x else if y < x then x else y

def Binary64.least (x y : Binary64) : Binary64 :=
  if y.toFloat.isNaN then x else if x.toFloat < y.toFloat then x else y

def Binary64.greatest (x y : Binary64) : Binary64 :=
  if y.toFloat.isNaN then x else if y.toFloat < x.toFloat then x else y

def degrees (x : Float) : Float := x * (180.0 / pi)

end StellarWind
