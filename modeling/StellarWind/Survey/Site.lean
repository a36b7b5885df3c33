import StellarWind.Settings.Basic
import StellarWind.Survey.Crew

/-!
# The site of a survey

The grid in one piece, as it is to come out on every worker, and the plan by
which it is shared. `Site.crew` lets the workers define their shares and exchange
them; `Site.visits` lets them sample.
-/

namespace StellarWind

namespace Survey

/-- A grid and the plan by which it is shared. -/
structure Site where
  /-- The grid with nothing defined. -/
  blank : Grid
  whole : Grid
  plan : Plan

inductive SiteError where
  | mesh (cause : MeshError)
  | exchange (cause : ExchangeError)

/-- The result of work on meshes. -/
def onMesh {α : Type} (r : Except (Abort MeshError) α) : Except (Abort SiteError) α :=
  r.mapError (Abort.map .mesh)

def onExchange {α : Type} (r : Except (Abort ExchangeError) α) : Except (Abort SiteError) α :=
  r.mapError (Abort.map .exchange)

namespace Site

/-- The site of a list of domains, shared evenly. -/
def build [Elementary] (meshes : List Mesh) (workers : Nat) : Except (Abort SiteError) Site := do
  let blank ← onMesh (Grid.build meshes)
  let whole ← onMesh (reported blank.defineAll)
  let plan ← onExchange (Plan.balanced whole.cells.length workers)
  onExchange plan.check
  return ⟨blank, whole, plan⟩

def size (s : Site) : Nat := s.whole.cells.length

/-- Let every worker define its share, and exchange all shares. -/
def crew [Elementary] (s : Site) :
    Except (Abort SiteError) (List (Except (Abort ExchangeError) Exchange.Report × Member)) := do
  let members ← onMesh (reported
    (s.plan.shares.mapM fun share => Member.define ⟨s.blank, share.range⟩))
  onExchange (exchange s.plan.largest members)

end Site

/-- What a worker brings back. -/
structure Visit where
  rank : Nat
  member : Member
  report : Except (Abort ExchangeError) Exchange.Report

/-- Give a worker the bands and let it sample its share. A worker whose exchange
failed does not sample. -/
def Visit.sample [Elementary] (v : Visit) (s : Settings) (spectrum : Spectrum) :
    Except Fault Visit :=
  match v.report with
  | .error _ => .ok v
  | .ok _ => do
    let sampler := samplerOf s.seed v.rank s.freqMin s.freqMax
    return { v with member := ← v.member.work (some spectrum) s.photonsPerCell sampler }

def Site.visits [Elementary] (site : Site) (s : Settings) (spectrum : Spectrum) :
    Except (Abort SiteError) (List Visit) := do
  let crew ← site.crew
  let arrived := crew.zipIdx.map fun ((report, member), rank) => (⟨rank, member, report⟩ : Visit)
  faulting (arrived.mapM fun v => v.sample s spectrum)

/-- Whether a worker has the cells of the whole grid. -/
def Visit.agrees (v : Visit) (site : Site) : Bool :=
  Cell.allAgree v.member.grid.cells site.whole.cells

end Survey

end StellarWind
