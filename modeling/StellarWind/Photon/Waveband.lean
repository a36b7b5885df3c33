/-!
# Wavebands

The three fixed parts of the spectrum in which directional flux is recorded.
-/

namespace StellarWind

/-- A fixed part of the spectrum. -/
inductive Waveband where
  | visible
  | ultraviolet
  | xray
deriving DecidableEq, Repr, Inhabited

namespace Waveband

def ultravioletLow : Float := 7.4e14

def ultravioletHigh : Float := 3e16

/-- The part of the spectrum that a frequency lies in. What compares with
neither bound is ultraviolet. -/
def classify (freq : Float) : Waveband :=
  if freq < ultravioletLow then visible
  else if freq > ultravioletHigh then xray
  else ultraviolet

def index : Waveband → Nat
  | visible => 0
  | ultraviolet => 1
  | xray => 2

def all : List Waveband := [visible, ultraviolet, xray]

end Waveband

end StellarWind
