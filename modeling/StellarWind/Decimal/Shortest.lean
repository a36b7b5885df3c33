import StellarWind.Decimal.Exact

/-!
# The fewest digits that read back

The reals that round to the double `m * 2 ^ q` form an interval around it; its
ends belong to it when `m` is even. Of the decimals inside the interval,
`shortest` takes one with the fewest digits, and of those the nearest. On each
decimal grid only the two neighbours of the value have to be looked at.
-/

namespace StellarWind

/-- Which of two equally near candidates is taken. -/
inductive Tie where
  | even
  | up
deriving DecidableEq, Repr

namespace Exact

/-- The number of quarters of a unit by which the interval reaches below `m * 2 ^ q`.
Just above a power of two the next double below is half as far. -/
def reachBelow (m : Nat) (q : Int) : Nat :=
  if m == hiddenBit && leastExponent < q then 1 else 2

/-- The decimal on the grid `10 ^ p` inside the interval of `m * 2 ^ q`, the
nearest one if both neighbours are inside. -/
def onGrid? (tie : Tie) (m : Nat) (q p : Int) : Option Nat :=
  -- a grid point `c` is `c * unit`, the value is `4 * m * quarter`
  let unit := powerNumerator 10 p * powerDenominator 2 (q - 2)
  let quarter := powerNumerator 2 (q - 2) * powerDenominator 10 p
  let value := 4 * m * quarter
  let low := (4 * m - reachBelow m q) * quarter
  let high := (4 * m + 2) * quarter
  let below := value / unit
  let above := below + 1
  let closed := m % 2 == 0
  let belowIn := if closed then low ≤ below * unit else low < below * unit
  let aboveIn := if closed then above * unit ≤ high else above * unit < high
  let toBelow := value - below * unit
  let toAbove := above * unit - value
  if belowIn && aboveIn then
    if toBelow < toAbove then some below
    else if toAbove < toBelow then some above
    else match tie with
      | .even => some (if below % 2 == 0 then below else above)
      | .up => some above
  else if belowIn then some below
  else if aboveIn then some above
  else none

/-- Try grids of `digits`, `digits + 1`, ... digits, at most `fuel` of them. -/
def shortestFrom (tie : Tie) (m : Nat) (q lead : Int) : Nat → Nat → Decimal
  | 0, digits =>
    let p := lead + 1 - digits
    ⟨m * powerNumerator 2 q * powerDenominator 10 p /
      (powerNumerator 10 p * powerDenominator 2 q), p⟩
  | fuel + 1, digits =>
    let p := lead + 1 - digits
    match onGrid? tie m q p with
    | some c => Decimal.trim ⟨c, p⟩
    | none => shortestFrom tie m q lead fuel (digits + 1)

/-- The decimal with the fewest digits that reads back as `m * 2 ^ q`. Seventeen
digits are always enough. -/
def shortest (tie : Tie) (m : Nat) (q : Int) : Decimal :=
  if m == 0 then ⟨0, 0⟩ else shortestFrom tie m q (leadingDecimal m q) 17 1

end Exact

end StellarWind
