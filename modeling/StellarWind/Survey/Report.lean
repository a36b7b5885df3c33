import StellarWind.Survey.Failure
import StellarWind.Survey.Site

/-!
# The report of a survey

The report of a survey names the workers and whether each has the grid as it was
defined in one piece, the totals over all cells, and the brightest cell.
`Survey.run` gives its lines, and how the survey ended.
-/

namespace StellarWind

namespace Survey

/-- A report that is being written; lines stay when it fails. -/
abbrev Writing := ExceptT (Abort Failure) (StateM (List String))

def say (line : String) : Writing Unit := modify (· ++ [line])

/-- Go on with a result. -/
def expect {ε α : Type} (f : ε → Failure) (r : Except (Abort ε) α) : Writing α :=
  ExceptT.mk (pure (r.mapError (Abort.map f)))

/-! ### Totals -/

/-- The sum of a number over tallies, in order. -/
def total (tallies : List Tally) (f : Tally → Binary64) : Float :=
  Spectrum.sum (tallies.map fun t => (f t).toFloat)

/-- The sum of a count over tallies. -/
def count (tallies : List Tally) (f : Tally → Nat) : Except Fault Nat :=
  checkedSum (tallies.map f)

/-- The smallest positive double with a full significand. -/
def smallestNormal : Float := Float.ofBits 0x0010000000000000

/-- A key that orders all patterns, those with a sign below. -/
def orderKey (x : Binary64) : Int :=
  let bits := x.bits.toNat
  if bits < Count.positive64 then bits else Count.positive64 - 1 - (bits : Int)

/-- The tally with the highest intensity, the last one of equals. -/
def brightest? (tallies : List Tally) : Option Tally :=
  tallies.foldl (fun best t => match best with
    | none => some t
    | some b => if orderKey t.intensity < orderKey b.intensity then some b else some t) none

def padLeft (width : Nat) (s : String) : String :=
  String.ofList (List.replicate (width - s.length) ' ') ++ s

/-- The lines on the bands of a tally that have a mean frequency. -/
def bandLines (t : Tally) : Except Fault (List String) := do
  let active ← t.activeBands
  return (active.zip t.bands.slots.toList).zipIdx.filterMap fun ((b, slot), i) =>
    b.mean?.map fun mean =>
      "  band " ++ padLeft 2 (toString i) ++ " [" ++ scientificText 2 slot.lower ++ ", " ++
        scientificText 2 slot.upper ++ "]: " ++ padLeft 4 (toString b.count) ++
        " segments, mean " ++ scientificText 3 mean ++ " Hz"

def summary (tallies : List Tally) : Except Fault (List String) := do
  let segments ← count tallies (·.segments)
  let packets ← count tallies (·.origins.total)
  let ionizing ← count tallies (·.ionizingPackets)
  let intensity := total tallies (·.intensity)
  let direct := total tallies (·.directIntensity) / greatest intensity smallestNormal
  let totals := [
    "",
    "=== Estimators ===",
    "Segments:          " ++ toString segments,
    "Distinct photons:  " ++ toString packets ++ " (" ++ toString ionizing ++ " ionizing)",
    "Sum of j:          " ++ scientificText 4 intensity ++ " (direct fraction " ++
      fixedText 3 direct ++ ")",
    "Sum of ip:         " ++ scientificText 4 (total tallies (·.ionizing)),
    "Sum of xi:         " ++ scientificText 4 (total tallies (·.ionization))]
  match brightest? tallies with
  | none => return totals
  | some t =>
    let mean := t.meanFreq?.toList.map fun f => "  mean frequency " ++ scientificText 3 f ++ " Hz"
    return totals ++ ["", "Brightest cell " ++ toString t.index ++ ":"] ++ mean ++ (← bandLines t)

/-! ### The survey -/

def workerLine (v : Visit) (r : Exchange.Report) (agrees : Bool) : String :=
  let owned := v.member.owned
  "Worker " ++ toString v.rank ++ ": cells " ++ toString owned.start ++ ".." ++
    toString owned.stop ++ ", sent " ++ toString r.sent ++ ", received " ++
    toString r.received ++ ", buffer " ++ toString r.capacity ++ " bytes, grid " ++
    (if agrees then "matches" else "DIVERGED")

def systemTitle : CoordSystem → String
  | .spherical => "Spherical"
  | .cylindrical => "Cylindrical"

def siteLine (system : CoordSystem) (site : Site) : String :=
  "Grid: " ++ systemTitle system ++ " with " ++ toString site.size ++ " cells over " ++
    toString site.plan.shares.length ++ " workers (at most " ++ toString site.plan.largest ++
    " per worker)"

/-- Report on the workers one after the other; `true` if all have the whole grid. -/
def workerLines (site : Site) : List Visit → Writing Bool
  | [] => return true
  | v :: rest => do
    let r ← expect (fun cause => .site (.exchange cause)) v.report
    say (workerLine v r (v.agrees site))
    return (← workerLines site rest) && v.agrees site

def report [Elementary] (s : Settings) : Writing Unit := do
  expect .settings s.check
  let spectrum ← expect .settings s.spectrum
  say "=== Radiative Transfer Estimator Demo ==="
  say ""
  let site ← expect .site (Site.build [s.mesh] s.workers)
  say (siteLine s.mesh.system site)
  say ("Bands: " ++ toString spectrum.size)
  let visits ← expect .site (site.visits s spectrum)
  say ""
  say "=== Synchronization ==="
  let agreed ← workerLines site visits
  let lines ← expect .site (faulting (summary (visits.flatMap (·.member.tallies))))
  lines.forM say
  unless agreed do throw (.error .diverged)

/-- The lines of a survey's report, and how it ended. -/
def run [Elementary] (s : Settings) : List String × Except (Abort Failure) Unit :=
  let (result, lines) := (report s).run.run []
  (lines, result)

end Survey

end StellarWind
