import StellarWind.Decimal.Shortest
import StellarWind.Number.Count

/-!
# Numerals

A number as it is written in a document. A numeral keeps its digits; it becomes
a count or a double only when a field asks for one.

A double is read from a numeral in two steps. The digits are taken into a 64-bit
significand as long as they fit; later digits before the point only raise the
exponent and later digits behind it are dropped. The significand, rounded to a
double, is then multiplied or divided by a power of ten, which rounds once more.
-/

namespace StellarWind

/-- A number in a document. -/
structure Numeral where
  negative : Bool
  whole : List Char
  /-- The digits behind the point; without any there is no point. -/
  fraction : List Char
  /-- The exponent: whether it is negative, and its digits. -/
  exponent : Option (Bool × List Char)
deriving DecidableEq, Repr

namespace Numeral

def digitValue (c : Char) : Nat := c.toNat - '0'.toNat

def value (digits : List Char) : Nat := digits.foldl (fun n c => n * 10 + digitValue c) 0

/-! ### Writing -/

def ofNat (n : Nat) : Numeral := ⟨false, Decimal.digits n, [], none⟩

def ofInt (n : Int) : Numeral := ⟨n < 0, Decimal.digits n.natAbs, [], none⟩

/-- The numeral of a decimal. It is written without an exponent, and with at
least one digit behind the point, from `1e-5` up to but not including `1e16`. -/
def ofDecimal (negative : Bool) (d : Decimal) : Numeral :=
  let ds := Decimal.digits d.coefficient
  if d.coefficient == 0 then ⟨negative, ['0'], ['0'], none⟩
  else if -5 ≤ d.leading && d.leading < 16 then
    if 0 ≤ d.exponent then
      ⟨negative, ds ++ List.replicate d.exponent.toNat '0', ['0'], none⟩
    else
      let places := (-d.exponent).toNat
      let padded := List.replicate (places + 1 - ds.length) '0' ++ ds
      ⟨negative, padded.take (padded.length - places), padded.drop (padded.length - places), none⟩
  else ⟨negative, ds.take 1, ds.drop 1, some (d.leading < 0, Decimal.digits d.leading.natAbs)⟩

/-- The numeral of a finite double, with the fewest digits that read back. -/
def ofFloat? (x : Float) : Option Numeral :=
  match Exact.ofFloat x with
  | .finite negative m q => some (ofDecimal negative (Exact.shortest .even m q))
  | _ => none

/-- The characters of a numeral. A positive exponent has a sign. -/
def chars (n : Numeral) : List Char :=
  (if n.negative then ['-'] else []) ++ n.whole ++
    (if n.fraction.isEmpty then [] else '.' :: n.fraction) ++
    match n.exponent with
    | none => []
    | some (negative, digits) => 'e' :: (if negative then '-' else '+') :: digits

/-! ### Reading counts -/

def isWhole (n : Numeral) : Bool := n.fraction.isEmpty && n.exponent.isNone

/-- A count below a bound. A sign makes it something else, even in front of zero. -/
def toNat? (bound : Nat) (n : Numeral) : Option Nat :=
  if n.isWhole && !n.negative && value n.whole < bound then some (value n.whole) else none

/-- A signed integer of 32 bits. Zero has no sign. -/
def toInt32? (n : Numeral) : Option Int32 :=
  let v := value n.whole
  if !n.isWhole then none
  else if n.negative then
    if 0 < v ∧ v ≤ Count.positive32 then some (Int32.ofInt (-v)) else none
  else if v < Count.positive32 then some (Int32.ofNat v) else none

/-! ### Reading doubles -/

/-- Append digits to a significand as long as they fit, and give the others. -/
def absorb : Nat → List Char → Nat × List Char
  | n, [] => (n, [])
  | n, c :: rest =>
    let next := n * 10 + digitValue c
    if next < Count.range64 then absorb next rest else (n, c :: rest)

/-- The significand of a numeral and its exponent. -/
def parts (n : Numeral) : Nat × Int :=
  let (front, extra) := absorb 0 n.whole
  let (significand, dropped) := absorb front n.fraction
  let written : Int := match n.exponent with
    | none => 0
    | some (true, digits) => -(value digits)
    | some (false, digits) => value digits
  (significand, extra.length - (n.fraction.length - dropped.length : Nat) + written)

/-- The largest power of ten that is a double. -/
def largestPower : Nat := 308

def powerOfTen (e : Nat) : Float := Float.ofScientific 1 false e

/-- Divide by a power of ten, in steps that a double can hold. -/
def divide (x : Float) (e : Nat) : Float :=
  if e ≤ largestPower then x / powerOfTen e
  else if x == 0 then x
  else divide (x / powerOfTen largestPower) (e - largestPower)
termination_by e
decreasing_by simp_all [largestPower]; omega

/-- Scale by a power of ten, unless the result is too large. -/
def scale? (x : Float) (e : Int) : Option Float :=
  if e < 0 then some (divide x e.natAbs)
  else if x == 0 then some x
  else if e.toNat ≤ largestPower then
    let y := x * powerOfTen e.toNat
    if y.isFinite then some y else none
  else none

def toFloat? (n : Numeral) : Option Float :=
  let (significand, e) := n.parts
  (scale? (Float.ofNat significand) e).map fun x => if n.negative then -x else x

end Numeral

end StellarWind
