import StellarWind.Random.Sampler
import StellarWind.Wind.Grid

/-!
# Sampling a grid

Segments are sampled inside cells and recorded in their tallies at once. A fault
leaves what was recorded before it.
-/

namespace StellarWind

variable {γ : Type} [RandomSource γ]

/-- Sample a number of segments in a cell and record them. -/
def Tally.fill [Elementary] (system : CoordSystem) (c : Cell) :
    Nat → Tally → Sampler γ → Except Fault Unit × Tally × Sampler γ
  | 0, t, s => (.ok (), t, s)
  | n + 1, t, s =>
    match Sampler.run (Sampler.sample c) s with
    | (.error fault, s') => (.error fault, t, s')
    | (.ok segment, s') =>
      match t.record system segment with
      | (.error fault, t') => (.error fault, t', s')
      | (.ok _, t') => fill system c n t' s'

namespace Grid

def sampleCell [Elementary] (g : Grid) (times : Nat) (n : Nat) (s : Sampler γ) :
    Except Fault Unit × Grid × Sampler γ :=
  match g.cells[n]?, g.tallies[n]? with
  | some c, some t =>
    let (result, t', s') := t.fill (g.systemOf c) c times s
    (result, { g with tallies := g.tallies.set n t' }, s')
  | _, _ => (.error .outOfBounds, g, s)

/-- Sample a number of segments in each of the given cells, in order. -/
def sampleCells [Elementary] (times : Nat) :
    List Nat → Grid → Sampler γ → Except Fault Unit × Grid × Sampler γ
  | [], g, s => (.ok (), g, s)
  | n :: rest, g, s =>
    match g.sampleCell times n s with
    | (.ok (), g', s') => sampleCells times rest g' s'
    | failed => failed

end Grid

end StellarWind
