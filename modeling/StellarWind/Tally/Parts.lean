import StellarWind.Fault
import StellarWind.Photon.Segment
import StellarWind.Photon.Waveband

/-!
# Parts of a tally

The sums that a cell keeps for each band, for each waveband and for each origin.
Sums are kept as stored doubles and go on by `Addition`; counts that leave the
64-bit range are a fault, which leaves what was added before it.
-/

namespace StellarWind

/-- One more, or the count as it was when it cannot be raised. -/
def countUp (n : Nat) : Except Fault Unit × Nat :=
  match checked (n + 1) with
  | .ok more => (.ok (), more)
  | .error fault => (.error fault, n)

/-! ### Bands -/

/-- The sums of one frequency band. -/
structure BandTally where
  freqSum : Binary64
  freqSquareSum : Binary64
  intensity : Binary64
  count : Nat
  lowest : Binary64
  highest : Binary64
deriving DecidableEq

namespace BandTally

def empty : BandTally := ⟨.zero, .zero, .zero, 0, .infinity, .zero⟩

/-- Add to the sums, which comes before counting. -/
def addSums [Elementary] [Addition] (b : BandTally) (s : Segment) : BandTally :=
  { b with
    freqSum := Addition.plus b.freqSum (s.freq * s.weighted : Float)
    freqSquareSum := Addition.plus b.freqSquareSum (s.freq * s.freq * s.weighted : Float)
    intensity := Addition.plus b.intensity s.weighted }

/-- Widen the range of frequencies, which comes after counting. -/
def widen (b : BandTally) (s : Segment) : BandTally :=
  { b with
    lowest := b.lowest.least (.ofFloat s.freq)
    highest := b.highest.greatest (.ofFloat s.freq) }

def add [Elementary] [Addition] (b : BandTally) (s : Segment) : Except Fault Unit × BandTally :=
  match countUp b.count with
  | (.ok (), count) => (.ok (), { b.addSums s with count }.widen s)
  | (.error fault, _) => (.error fault, b.addSums s)

/-- The mean frequency, if the intensity is positive. -/
def mean? (b : BandTally) : Option Float :=
  if b.intensity.toFloat > 0 then some (b.freqSum.toFloat / b.intensity.toFloat) else none

/-- The standard deviation of the frequency, if the intensity is positive. -/
def spread? (b : BandTally) : Option Float :=
  b.mean?.map fun mean =>
    (greatest (b.freqSquareSum.toFloat / b.intensity.toFloat - mean * mean) 0).sqrt

end BandTally

/-! ### Wavebands -/

/-- The directional flux in one waveband: the sum of the flux vectors, and that of their
lengths. -/
structure FluxTally where
  vector : Vec3 Binary64
  magnitude : Binary64
deriving DecidableEq

namespace FluxTally

def empty : FluxTally := ⟨⟨.zero, .zero, .zero⟩, .zero⟩

def add [Elementary] [Addition] (f : FluxTally) (v : Vec3 Float) : FluxTally :=
  ⟨f.vector.plus v.store, Addition.plus f.magnitude v.norm⟩

end FluxTally

structure FluxTallies where
  visible : FluxTally
  ultraviolet : FluxTally
  xray : FluxTally
deriving DecidableEq

namespace FluxTallies

def empty : FluxTallies := ⟨.empty, .empty, .empty⟩

def get (f : FluxTallies) : Waveband → FluxTally
  | .visible => f.visible
  | .ultraviolet => f.ultraviolet
  | .xray => f.xray

def add [Elementary] [Addition] (f : FluxTallies) (v : Vec3 Float) : Waveband → FluxTallies
  | .visible => { f with visible := f.visible.add v }
  | .ultraviolet => { f with ultraviolet := f.ultraviolet.add v }
  | .xray => { f with xray := f.xray.add v }

theorem get_add [Elementary] [Addition] (f : FluxTallies) (v : Vec3 Float) (w w' : Waveband) :
    (f.add v w).get w' = if w' = w then (f.get w').add v else f.get w' := by
  cases w <;> cases w' <;> simp [get, add]

end FluxTallies

/-! ### Origins -/

/-- How many packets came from each origin. -/
structure OriginCounts where
  star : Nat
  boundaryLayer : Nat
  disk : Nat
  wind : Nat
  agn : Nat
  total : Nat
deriving DecidableEq

namespace OriginCounts

def empty : OriginCounts := ⟨0, 0, 0, 0, 0, 0⟩

def get (c : OriginCounts) : Origin → Nat
  | .star => c.star
  | .boundaryLayer => c.boundaryLayer
  | .disk => c.disk
  | .wind => c.wind
  | .agn => c.agn

def set (c : OriginCounts) (n : Nat) : Origin → OriginCounts
  | .star => { c with star := n }
  | .boundaryLayer => { c with boundaryLayer := n }
  | .disk => { c with disk := n }
  | .wind => { c with wind := n }
  | .agn => { c with agn := n }

/-- Count one more packet, first among all and then by its origin. -/
def record (c : OriginCounts) (o : Origin) : Except Fault Unit × OriginCounts :=
  match countUp c.total with
  | (.ok (), total) =>
    let (result, n) := countUp (c.get o)
    (result, { c with total }.set n o)
  | (.error fault, _) => (.error fault, c)

end OriginCounts

end StellarWind
