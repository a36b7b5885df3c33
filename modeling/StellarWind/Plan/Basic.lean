import StellarWind.Fault
import StellarWind.Wire.Error

/-!
# Plans

A plan gives each worker a contiguous share of the cells. `Plan.balanced` makes
shares that differ by at most one cell; `Plan.check` checks a plan from
elsewhere and says the first thing that is wrong with it.
-/

namespace StellarWind

/-- The cells from `start` up to `stop`, which is not one of them. There are none
when `stop` is not above `start`. -/
structure CellRange where
  start : Nat
  stop : Nat
deriving DecidableEq, Repr

namespace CellRange

def size (r : CellRange) : Nat := r.stop - r.start

def contains (r : CellRange) (cell : Nat) : Bool := r.start ≤ cell && cell < r.stop

def cells (r : CellRange) : List Nat := List.range' r.start r.size

end CellRange

structure Share where
  rank : Nat
  range : CellRange
deriving DecidableEq, Repr

/-- A division of cells among workers. -/
structure Plan where
  total : Nat
  shares : List Share
deriving DecidableEq, Repr

namespace Plan

/-- The size of the largest share when cells are divided as evenly as possible. -/
def evenSize (total workers : Nat) : Nat :=
  if workers = 0 then 0 else (total + workers - 1) / workers

/-- The share of one worker when every worker gets `base` cells and the first
`extra` workers get one more. -/
def evenShare (base extra rank : Nat) : Except Fault Share := do
  let more ← checked (base + 1)
  let start ← if rank < extra then checked (rank * more)
    else do
      let first ← checked (extra * more)
      let others ← checked ((rank - extra) * base)
      checked (first + others)
  let stop ← checked (start + if rank < extra then more else base)
  return ⟨rank, ⟨start, stop⟩⟩

/-- The number of shares of 24 bytes that no memory can hold. -/
def shareLimit : Nat := 384307168202282326

/-- Shares that differ by at most one cell, the larger ones first. -/
def balanced (total workers : Nat) : Except (Abort ExchangeError) Plan :=
  if workers = 0 then .error (.error (.invalidPlan .noWorkers))
  else if shareLimit ≤ workers then .error (.fault .outOfMemory)
  else do
    let shares ← faulting
      ((List.range workers).mapM (evenShare (total / workers) (total % workers)))
    return ⟨total, shares⟩

/-- A plan with the given ranges in the order of ranks. -/
def ofRanges (total : Nat) (ranges : List CellRange) : Plan :=
  ⟨total, ranges.zipIdx.map fun (range, rank) => ⟨rank, range⟩⟩

def share (p : Plan) (rank : Nat) : Except ExchangeError Share :=
  match p.shares[rank]? with
  | some s => .ok s
  | none => .error (.invalidRank rank p.shares.length)

def largest (p : Plan) : Nat := (p.shares.map (·.range.size)).foldl max 0

def owners (p : Plan) (cell : Nat) : List Nat :=
  (p.shares.filter (·.range.contains cell)).map (·.rank)

/-! ### Checking a plan -/

/-- Enter a rank as the owner of cells, one after another. A cell that has an owner
already stops this. -/
def claim {total : Nat} (rank : Nat) : List Nat → Vector (Option Nat) total →
    Except (Abort PlanProblem) (Vector (Option Nat) total)
  | [], owners => .ok owners
  | cell :: cells, owners =>
    if h : cell < total then
      match owners[cell] with
      | some other => .error (.error (.overlap cell other rank))
      | none => claim rank cells (owners.set cell (some rank))
    else .error (.fault .outOfBounds)

/-- Enter the ranks of all shares as the owners of their cells. A share that leaves the
grid or has a cell of an earlier one stops this. -/
def claimAll {total : Nat} : List Share → Vector (Option Nat) total →
    Except (Abort PlanProblem) (Vector (Option Nat) total)
  | [], owners => .ok owners
  | s :: rest, owners =>
    if total < s.range.stop then .error (.error (.outOfRange s.rank s.range.stop total))
    else do
      let owners ← claim s.rank s.range.cells owners
      claimAll rest owners

/-- The number of cells whose owners no memory can hold, `2 ^ 59`. -/
def ownerLimit : Nat := 576460752303423488

/-- Check that every cell has exactly one owner: a share that does not fit is reported
first, then a cell without an owner. -/
def check (p : Plan) : Except (Abort ExchangeError) Unit :=
  if ownerLimit ≤ p.total then .error (.fault .outOfMemory)
  else match claimAll p.shares (Vector.replicate p.total none) with
    | .error failure => .error (failure.map .invalidPlan)
    | .ok owners => match owners.toList.findIdx? Option.isNone with
      | some cell => .error (.error (.invalidPlan (.unowned cell)))
      | none => .ok ()

end Plan

end StellarWind
