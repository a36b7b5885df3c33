import StellarWind.Decimal.Text
import StellarWind.Fault
import StellarWind.Spectrum.Band

/-!
# Spectra

A spectrum is a list of bands. It is built from increasing edges, given one by
one or spaced evenly on a logarithmic scale; `Problem` says what is wrong with
the edges, the first defect in the order of the checks.
-/

namespace StellarWind

structure Spectrum where
  bands : List Band

namespace Spectrum

/-- What is wrong with the edges of a spectrum. -/
inductive Problem where
  | tooFewEdges (count : Nat)
  | tooManyBands (count : Nat)
  | invalidEdge (index : Nat) (value : Float)
  | notIncreasing (index : Nat) (lower upper : Float)

def Problem.message : Problem → String
  | .tooFewEdges count => "at least two band edges are required, got " ++ toString count
  | .tooManyBands count =>
    toString count ++ " bands requested but at most " ++ toString bandLimit ++ " are supported"
  | .invalidEdge index value =>
    "band edge " ++ toString index ++ " is " ++ NumberStyle.message.render value ++
      ", edges must be positive and finite"
  | .notIncreasing index lower upper =>
    "band edges must increase: edge " ++ toString index ++ " (" ++
      NumberStyle.message.render upper ++ ") is not above " ++ NumberStyle.message.render lower

def Problem.kind : Problem → String
  | .tooFewEdges _ => "TooFewEdges"
  | .tooManyBands _ => "TooManyBands"
  | .invalidEdge _ _ => "InvalidEdge"
  | .notIncreasing _ _ _ => "NotIncreasing"

def size (s : Spectrum) : Nat := s.bands.length

def range? (s : Spectrum) : Option (Float × Float) :=
  match s.bands.head?, s.bands.getLast? with
  | some first, some last => some (first.lower, last.upper)
  | _, _ => none

/-! ### Shares of photons -/

/-- The sum of a list of values in order. -/
def sum (xs : List Float) : Float := xs.foldl (· + ·) 0

/-- Divide the used shares by their sum, if that is positive. -/
def normalized (s : Spectrum) : Spectrum :=
  let total := sum (s.bands.map (·.usedFraction))
  if total > 0 then
    ⟨s.bands.map fun b => { b with usedFraction := b.usedFraction / total }⟩
  else s

/-- Share the luminosity by the given fractions, one for each band. Bands beyond
the end of the list keep their share, and a sum that is not positive changes
nothing. -/
def withFractions (s : Spectrum) (fractions : List Float) : Spectrum :=
  let total := sum (fractions.take s.size)
  if total ≤ 0 then s
  else
    let shared := (s.bands.zip fractions).map fun (b, f) => b.share (f / total)
    normalized ⟨shared ++ s.bands.drop fractions.length⟩

/-! ### Building a spectrum -/

def isEdge (x : Float) : Bool := x.isFinite && !(x ≤ 0)

/-- Each edge with the one before it. -/
def steps (edges : List Float) : List (Float × Float) := edges.zip edges.tail

/-- The first defect of a list of edges. -/
def problem? (edges : List Float) : Option Problem :=
  if edges.length < 2 then some (.tooFewEdges edges.length)
  else if bandLimit < edges.length - 1 then some (.tooManyBands (edges.length - 1))
  else match edges.zipIdx.find? fun (x, _) => !isEdge x with
    | some (value, index) => some (.invalidEdge index value)
    | none => match (steps edges).zipIdx.find? fun ((lower, upper), _) => upper ≤ lower with
      | some ((lower, upper), index) => some (.notIncreasing (index + 1) lower upper)
      | none => none

/-- Adjoining bands between the given edges, with equal shares of the luminosity. -/
def ofEdges (edges : List Float) (minFraction : Float) : Except Problem Spectrum :=
  match problem? edges with
  | some p => .error p
  | none =>
    let share := 1 / Float.ofNat (edges.length - 1)
    let bands := (steps edges).map fun (lower, upper) =>
      (Band.blank lower upper minFraction).share share
    .ok (normalized ⟨bands⟩)

/-- The edges of `count` bands that are evenly spaced on a logarithmic scale.
Both ends are exact. -/
def logEdges [Elementary] (low high : Float) (count : Nat) : List Float :=
  let start := Elementary.log10 low
  let step := (Elementary.log10 high - start) / Float.ofNat count
  (List.range (count + 1)).map fun i =>
    if i == count then high
    else if i == 0 then low
    else Elementary.pow 10 (start + step * Float.ofNat i)

/-- The number of edges that no memory can hold, `2 ^ 60`. -/
def edgeLimit : Nat := 1152921504606846976

def logUniform [Elementary] (low high : Float) (count : Nat) :
    Except (Abort Problem) Spectrum :=
  if count == 0 then .error (.error (.tooFewEdges 1))
  else if edgeLimit ≤ count + 1 then .error (.fault .outOfMemory)
  else if bandLimit < count then .error (.error (.tooManyBands count))
  else reported (ofEdges (logEdges low high count) 0)

/-! ### Recipes -/

/-- How settings describe a spectrum. -/
inductive Recipe where
  | edges (values : List Float) (minFraction : Float)
  | logUniform (low high : Float) (count : Nat)

/-- Ten bands over four decades. -/
def Recipe.default : Recipe := .logUniform 1e14 1e18 10

def Recipe.build [Elementary] : Recipe → Except (Abort Problem) Spectrum
  | .edges values minFraction => reported (ofEdges values minFraction)
  | .logUniform low high count => Spectrum.logUniform low high count

end Spectrum

end StellarWind
