import StellarWind.Spectrum.Basic

/-!
# Band tables

The edges of a spectrum as a cell holds them: a fixed number of slots, of which
the first `count` are in use.
-/

namespace StellarWind

structure Slot where
  lower : Float
  upper : Float

/-- The bands of a cell. -/
structure BandTable where
  count : Nat
  slots : Vector Slot bandLimit

namespace BandTable

/-- The slot of an unused band. -/
def unused : Slot := ⟨0, 0⟩

def empty : BandTable := ⟨0, Vector.replicate bandLimit unused⟩

/-- The table with the given edges in its first slots. -/
def ofEdges (count : Nat) (edges : List (Float × Float)) : BandTable :=
  ⟨count, Vector.ofFn fun i => match edges[i.val]? with
    | some (lower, upper) => ⟨lower, upper⟩
    | none => unused⟩

/-- The table of a spectrum. A spectrum with too many bands has none. -/
def ofSpectrum (s : Spectrum) : Except Fault BandTable :=
  if bandLimit < s.size then .error .outOfBounds
  else .ok (ofEdges s.size (s.bands.map fun b => (b.lower, b.upper)))

/-- Whether a frequency lies in the band of slot `i`, and that band is in use. -/
def holds (t : BandTable) (freq : Float) (i : Fin bandLimit) : Bool :=
  decide (i.val < t.count) && withinEdges t.slots[i].lower t.slots[i].upper freq

/-- The bands that a frequency lies in, in order. -/
def matching (t : BandTable) (freq : Float) : List (Fin bandLimit) :=
  (List.finRange bandLimit).filter (t.holds freq)

end BandTable

end StellarWind
