import StellarWind.Number.Functions

/-!
# Frequency bands

A band is a half-open interval of frequencies, open below and closed above, with
the bookkeeping of photon generation.
-/

namespace StellarWind

/-- The largest number of bands that a cell can hold. -/
def bandLimit : Nat := 20

structure Band where
  /-- The lower edge, outside the band. -/
  lower : Float
  /-- The upper edge, inside the band. -/
  upper : Float
  /-- The least share of photons to generate in this band. -/
  minFraction : Float
  /-- The share of the luminosity in this band. -/
  naturalFraction : Float
  /-- The share of photons that is generated in this band. -/
  usedFraction : Float
  flux : Float
  weight : Float
  photons : Nat

/-- Whether a frequency lies in the interval that is open below and closed above. -/
def withinEdges (lower upper freq : Float) : Bool := lower < freq && freq ≤ upper

namespace Band

def blank (lower upper minFraction : Float) : Band :=
  ⟨lower, upper, minFraction, 0, 0, 0, 0, 0⟩

def contains (b : Band) (freq : Float) : Bool := withinEdges b.lower b.upper freq

/-- Take a share of the luminosity; the share of photons is raised to the least one. -/
def share (b : Band) (fraction : Float) : Band :=
  { b with naturalFraction := fraction, usedFraction := greatest fraction b.minFraction }

end Band

end StellarWind
