import StellarWind.Photon.Energy
import StellarWind.Spectrum.Table
import StellarWind.Tally.Parts

/-!
# Tallies

The radiation estimators of one cell: running sums over the path segments that
crossed it. A tally is filled segment by segment with `record`, which routes the
segment to every sum it belongs to and says what it did in an `Effect`. A fault
leaves the sums and counts that were raised before it.
-/

namespace StellarWind

/-- The estimators of one cell. -/
structure Tally where
  index : Nat
  /-- The cell that is described. -/
  cell : Nat
  /-- The mean intensity, and its unscattered and its scattered part. -/
  intensity : Binary64
  directIntensity : Binary64
  scatteredIntensity : Binary64
  pathLength : Binary64
  segments : Nat
  freqSum : Binary64
  flux : FluxTallies
  bands : BandTable
  bandTallies : Vector BandTally bandLimit
  /-- The number of ionizing photons, and its unscattered and its scattered part. -/
  ionizing : Binary64
  directIonizing : Binary64
  scatteredIonizing : Binary64
  /-- The intensity in the range of the ionization parameter. -/
  ionization : Binary64
  origins : OriginCounts
  ionizingPackets : Nat
  last : Option PacketId
  lastIonizing : Option PacketId

namespace Tally

/-- What a segment was counted as. -/
structure Effect where
  waveband : Waveband
  band : Option (Fin bandLimit)
  newPacket : Bool
  /-- Whether the packet ionizes and is another one than the last that did. -/
  newIonizing : Bool

def blank (index cell : Nat) : Tally where
  index := index
  cell := cell
  intensity := .zero
  directIntensity := .zero
  scatteredIntensity := .zero
  pathLength := .zero
  segments := 0
  freqSum := .zero
  flux := .empty
  bands := .empty
  bandTallies := Vector.replicate bandLimit .empty
  ionizing := .zero
  directIonizing := .zero
  scatteredIonizing := .zero
  ionization := .zero
  origins := .empty
  ionizingPackets := 0
  last := none
  lastIonizing := none

/-- Start over with the same bands. -/
def reset (t : Tally) : Tally := { blank t.index t.cell with bands := t.bands }

/-- The tallies of the bands in use. A table that claims more bands than it has
slots has none. -/
def activeBands (t : Tally) : Except Fault (List BandTally) :=
  if bandLimit < t.bands.count then .error .outOfBounds
  else .ok (t.bandTallies.toList.take t.bands.count)

/-- The mean frequency of all segments, if the intensity is positive. -/
def meanFreq? (t : Tally) : Option Float :=
  if t.intensity.toFloat > 0 then some (t.freqSum.toFloat / t.intensity.toFloat) else none

def meanPath? (t : Tally) : Option Float :=
  if 0 < t.segments then some (t.pathLength.toFloat / Float.ofNat t.segments) else none

def effect (t : Tally) (s : Segment) : Effect where
  waveband := Waveband.classify s.freq
  band := (t.bands.matching s.freq).head?
  newPacket := t.last ≠ some s.id
  newIonizing := ionizes s.freq && t.lastIonizing ≠ some s.id

/-! ### Sums -/

section

variable [Elementary] [Addition]

def addPath (t : Tally) (s : Segment) : Tally :=
  { t with
    intensity := Addition.plus t.intensity s.weighted
    directIntensity :=
      if s.direct then Addition.plus t.directIntensity s.weighted else t.directIntensity
    scatteredIntensity :=
      if s.direct then t.scatteredIntensity else Addition.plus t.scatteredIntensity s.weighted
    pathLength := Addition.plus t.pathLength (.ofFloat s.length) }

def addFlux (t : Tally) (system : CoordSystem) (s : Segment) : Tally :=
  { t with
    freqSum := Addition.plus t.freqSum (s.freq * s.weighted : Float)
    flux := t.flux.add (s.flux system) (Waveband.classify s.freq) }

def addIonization (t : Tally) (s : Segment) : Tally :=
  if ionizes s.freq then
    let photons := s.weighted / (planck * s.freq)
    { t with
      ionizing := Addition.plus t.ionizing photons
      directIonizing :=
        if s.direct then Addition.plus t.directIonizing photons else t.directIonizing
      scatteredIonizing :=
        if s.direct then t.scatteredIonizing else Addition.plus t.scatteredIonizing photons
      ionization :=
        if photonEnergy s.freq < ionizationCeiling then Addition.plus t.ionization s.weighted
        else t.ionization }
  else t

end

end Tally

/-! ### Recording a segment -/

/-- A tally that is being filled; what was done before a fault stays done. -/
abbrev Recording := ExceptT Fault (StateM Tally)

namespace Recording

def on {α : Type} (r : Recording α) (t : Tally) : Except Fault α × Tally := r.run.run t

def within {α : Type} (get : Tally → α) (set : Tally → α → Tally)
    (f : α → Except Fault Unit × α) : Recording Unit :=
  ExceptT.mk fun t =>
    let (result, part) := f (get t)
    (result, set t part)

def countSegment : Recording Unit :=
  within (·.segments) (fun t n => { t with segments := n }) countUp

def addBand [Elementary] [Addition] (s : Segment) (i : Fin bandLimit) : Recording Unit := do
  if (← get).bands.holds s.freq i then
    within (·.bandTallies.get i) (fun t b => { t with bandTallies := t.bandTallies.set i b i.isLt })
      (·.add s)

/-- A table that claims more bands than it has slots stops here. -/
def checkBands : Recording Unit := do
  if bandLimit < (← get).bands.count then throw .outOfBounds

def countPacket (s : Segment) : Recording Unit := do
  if (← get).last ≠ some s.id then
    within (·.origins) (fun t counts => { t with origins := counts }) (·.record s.origin)
    modify fun t => { t with last := some s.id }

/-- Count the packet if it ionizes and is not the last one that did. -/
def countIonizing (s : Segment) : Recording Unit := do
  if ionizes s.freq && (← get).lastIonizing ≠ some s.id then
    within (·.ionizingPackets) (fun t n => { t with ionizingPackets := n }) countUp
    modify fun t => { t with lastIonizing := some s.id }

/-- Add a segment to everything that it belongs to, bands in the order of their slots. -/
def segment [Elementary] [Addition] (system : CoordSystem) (s : Segment) : Recording Unit := do
  modify (·.addPath s)
  countSegment
  modify (·.addFlux system s)
  (List.finRange bandLimit).forM (addBand s)
  checkBands
  countPacket s
  countIonizing s
  modify (·.addIonization s)

end Recording

/-- Record a segment, and say what it was counted as. -/
def Tally.record [Elementary] [Addition] (t : Tally) (system : CoordSystem) (s : Segment) :
    Except Fault Effect × Tally :=
  let (result, t') := (Recording.segment system s).on t
  (result.map fun _ => t.effect s, t')

/-- What becomes of giving every tally the bands of a spectrum, and the tallies that it
leaves. The table is made before any tally is touched. -/
def Spectrum.installing (s : Spectrum) (tallies : List Tally) : Except Fault Unit × List Tally :=
  match BandTable.ofSpectrum s with
  | .error fault => (.error fault, tallies)
  | .ok table => (.ok (), tallies.map fun t => { t with bands := table })

def Spectrum.install (s : Spectrum) (tallies : List Tally) : Except Fault (List Tally) :=
  match s.installing tallies with
  | (.ok (), installed) => .ok installed
  | (.error fault, _) => .error fault

end StellarWind
