import StellarWind.Decimal.Rounded
import StellarWind.Decimal.Shortest

/-!
# Numbers as text

Two ways to lay out the digits of a decimal, with a point among them or with an
exponent behind them, and the styles in which this library writes doubles.
-/

namespace StellarWind

namespace Decimal

/-- The digits with a point in place, and without an exponent. -/
def positional (d : Decimal) (keepPoint : Bool) : String :=
  let ds := digits d.coefficient
  if 0 ≤ d.exponent then
    let whole := ds ++ List.replicate (if d.coefficient == 0 then 0 else d.exponent.toNat) '0'
    String.ofList (if keepPoint then whole ++ ['.', '0'] else whole)
  else
    let places := (-d.exponent).toNat
    let padded := List.replicate (places + 1 - ds.length) '0' ++ ds
    let whole := padded.take (padded.length - places)
    let fraction := padded.drop (padded.length - places)
    String.ofList (whole ++ '.' :: fraction)

/-- One digit, the others behind a point, and the exponent of the first. -/
def scientific (d : Decimal) (plus : Bool) : String :=
  let ds := digits d.coefficient
  let mantissa := match ds with
    | first :: [] => [first]
    | first :: others => first :: '.' :: others
    | [] => []
  let e := if d.coefficient == 0 then 0 else d.leading
  let sign := if plus && 0 ≤ e then "+" else ""
  String.ofList mantissa ++ "e" ++ sign ++ toString e

end Decimal

/-- How doubles are written with the fewest digits that read back. -/
structure NumberStyle where
  /-- The exponents of a leading digit that is written with a point in place;
  `none` for all. -/
  plain : Option (Int × Int)
  /-- Whether a whole number keeps a point and a zero. -/
  keepPoint : Bool
  plus : Bool
  tie : Tie
  notANumber : String
  infinite : String
  negativeInfinite : String

namespace NumberStyle

def isPlain (style : NumberStyle) (d : Decimal) : Bool :=
  match style.plain with
  | none => true
  | some (low, high) => d.coefficient == 0 || (low ≤ d.leading && d.leading < high)

def render (style : NumberStyle) (x : Float) : String :=
  match Exact.ofFloat x with
  | .notANumber => style.notANumber
  | .infinite false => style.infinite
  | .infinite true => style.negativeInfinite
  | .finite negative m q =>
    let d := Exact.shortest style.tie m q
    (if negative then "-" else "") ++
      (if style.isPlain d then d.positional style.keepPoint else d.scientific style.plus)

/-- In messages there is never an exponent, and a whole number has no point. -/
def message : NumberStyle where
  plain := none
  keepPoint := false
  plus := false
  tie := .up
  notANumber := "NaN"
  infinite := "inf"
  negativeInfinite := "-inf"

/-- In dumps of values there is an exponent from `1e16` up and below `1e-4`. -/
def dump : NumberStyle where
  plain := some (-4, 16)
  keepPoint := true
  plus := false
  tie := .up
  notANumber := "NaN"
  infinite := "inf"
  negativeInfinite := "-inf"

end NumberStyle

/-- The text of a double with one digit before the point, `places` behind it, and
an exponent. -/
def scientificText (places : Nat) (x : Float) : String :=
  match Exact.ofFloat x with
  | .notANumber => "NaN"
  | .infinite negative => if negative then "-inf" else "inf"
  | .finite negative m q =>
    let d := Exact.significant places m q
    let ds := Decimal.digits d.coefficient
    let padded := ds ++ List.replicate (places + 1 - ds.length) '0'
    let e := if m == 0 then 0 else d.leading
    let mantissa := match padded with
      | first :: [] => [first]
      | first :: others => first :: '.' :: others
      | [] => []
    (if negative then "-" else "") ++ String.ofList mantissa ++ "e" ++ toString e

def fixedText (places : Nat) (x : Float) : String :=
  match Exact.ofFloat x with
  | .notANumber => "NaN"
  | .infinite negative => if negative then "-inf" else "inf"
  | .finite negative m q =>
    let d : Decimal := ⟨Exact.roundedAt m q (-places), -places⟩
    (if negative then "-" else "") ++ d.positional false

end StellarWind
