import StellarWind.Exchange.Group
import StellarWind.Random.ChaCha
import StellarWind.Survey.Sampling

/-!
# A crew of workers

Each worker of a crew has its own copy of the grid and defines the cells of its
share. An exchange then gives everyone all cells, and each worker samples
segments in its own.
-/

namespace StellarWind

namespace Survey

/-- A worker's copy of the grid and its share of the cells. -/
structure Member where
  grid : Grid
  owned : CellRange

def Member.define [Elementary] (m : Member) : Except MeshError Member := do
  return { m with grid := ← m.grid.define m.owned }

/-- Exchange cells so that every worker has those of all shares. -/
def exchange (limit : Nat) (crew : List Member) :
    Except (Abort ExchangeError) (List (Except (Abort ExchangeError) Exchange.Report × Member)) :=
  do
  let seats ← reported (Seat.group crew.length)
  let tasks := crew.map fun m => (⟨m.grid.cells, m.owned, limit⟩ : Exchange.Task)
  let outcomes ← Exchange.synchronizeGroup (tasks.zip seats)
  return crew.zipWith (fun m (o : Exchange.Outcome Seat) =>
    (o.result, { m with grid := { m.grid with cells := o.cells } })) outcomes

/-- The sampler of a worker: the seed of the run and the rank make its own. -/
def samplerOf (seed rank : Nat) (low high : Float) : Sampler ChaCha :=
  .ofSource (.ofSeed (seed.toUInt64 + rank.toUInt64)) low high

/-- Take over the bands of a spectrum, if there is one, and sample a number of
segments in each cell of the share. -/
def Member.work [Elementary] (m : Member) (spectrum : Option Spectrum) (photons : Nat)
    (s : Sampler ChaCha) : Except Fault Member := do
  let ready ← match spectrum with
    | some b => m.grid.withBands b
    | none => pure m.grid
  match ready.sampleCells photons m.owned.cells s with
  | (.ok (), grid, _) => return { m with grid }
  | (.error fault, _, _) => throw fault

def Member.tallies (m : Member) : List Tally :=
  (m.grid.tallies.drop m.owned.start).take m.owned.size

end Survey

end StellarWind
