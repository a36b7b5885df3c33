import StellarWind.Tally.Basic
import StellarWind.Wind.Mesh

/-!
# Grids

A grid is one worker's copy of all cells with their tallies, domain after
domain. `Grid.build` numbers the cells; `Grid.define` gives a range of them their
geometry, domain by domain.
-/

namespace StellarWind

/-- One domain and the cells it takes up. -/
structure Domain where
  mesh : Mesh
  start : Nat
  count : Nat

namespace Domain

def range (d : Domain) : CellRange := ⟨d.start, d.start + d.count⟩

/-- Define the part of a range of the grid that lies in the domain. The mesh is checked
again, and the part is counted from the start of the domain. -/
def define [Elementary] (d : Domain) (range : CellRange) (cells : List Cell) :
    Except MeshError (List Cell) :=
  let start := max range.start d.start
  let stop := min range.stop (d.start + d.count)
  if stop ≤ start then .ok cells
  else do
    d.mesh.check
    let own := (cells.drop d.start).take d.count
    let defined ← d.mesh.defineWithin (min d.count own.length)
      ⟨start - d.start, stop - d.start⟩ own
    return cells.take d.start ++ defined ++ cells.drop (d.start + d.count)

end Domain

/-- A copy of all cells. -/
structure Grid where
  domains : List Domain
  cells : List Cell
  tallies : List Tally

namespace Grid

/-- Number the cells of domains, the first of which has the given number and
starts at the given cell. -/
def layOut : Nat → Nat → List Mesh → Except (Abort MeshError) (List Domain × List Cell)
  | _, _, [] => .ok ([], [])
  | number, start, m :: rest => do
    reported m.check
    let count ← faulting m.size
    let (domains, cells) ← layOut (number + 1) (start + count) rest
    let own := (List.range count).map fun i => Cell.blank number i (start + i)
    return (⟨m, start, count⟩ :: domains, own ++ cells)

/-- The grid of a list of domains, with nothing defined. -/
def build (meshes : List Mesh) : Except (Abort MeshError) Grid := do
  let (domains, cells) ← layOut 0 0 meshes
  return ⟨domains, cells, (List.range cells.length).map fun n => Tally.blank n n⟩

/-- The coordinate system of the domain that a cell names. -/
def systemOf (g : Grid) (c : Cell) : CoordSystem :=
  match g.domains[c.domain]? with
  | some d => d.mesh.system
  | none => .cylindrical

/-- Define the part of a range in each domain. What was defined before a failure stays. -/
def defineDomains [Elementary] (range : CellRange) :
    List Domain → List Cell → Except MeshError Unit × List Cell
  | [], cells => (.ok (), cells)
  | d :: rest, cells =>
    match d.define range cells with
    | .ok defined => defineDomains range rest defined
    | .error cause => (.error cause, cells)

/-- What becomes of defining the cells of a range, and the cells that it leaves. -/
def defining [Elementary] (g : Grid) (range : CellRange) : Except MeshError Unit × List Cell :=
  if g.cells.length < range.stop then (.error (.rangeOutOfBounds range g.cells.length), g.cells)
  else defineDomains range g.domains g.cells

def define [Elementary] (g : Grid) (range : CellRange) : Except MeshError Grid :=
  match g.defining range with
  | (.ok (), cells) => .ok { g with cells }
  | (.error cause, _) => .error cause

def defineAll [Elementary] (g : Grid) : Except MeshError Grid := g.define ⟨0, g.cells.length⟩

def reset (g : Grid) : Grid := { g with tallies := g.tallies.map Tally.reset }

def withBands (g : Grid) (s : Spectrum) : Except Fault Grid := do
  return { g with tallies := ← s.install g.tallies }

/-- Record a segment in a cell, in the coordinate system of its domain. -/
def record [Elementary] [Addition] (g : Grid) (n : Nat) (s : Segment) :
    Except Fault Tally.Effect × Grid :=
  match g.cells[n]?, g.tallies[n]? with
  | some c, some t =>
    let (effect, t') := t.record (g.systemOf c) s
    (effect, { g with tallies := g.tallies.set n t' })
  | _, _ => (.error .outOfBounds, g)

end Grid

namespace Cell

/-- Equality of two cells by their values: the zeros agree, and a value that is
not a number differs from everything. -/
def agrees (a b : Cell) : Bool :=
  let vec (u v : Vec3 Binary64) := u.x.agrees v.x && u.y.agrees v.y && u.z.agrees v.z
  a.domain == b.domain && a.domainIndex == b.domainIndex && a.tallyIndex == b.tallyIndex &&
    vec a.position b.position && vec a.centroid b.centroid &&
    a.r.agrees b.r && a.rCenter.agrees b.rCenter && a.theta.agrees b.theta &&
    a.thetaCenter.agrees b.thetaCenter && a.dtheta.agrees b.dtheta && a.dr.agrees b.dr &&
    a.cone.offset.agrees b.cone.offset && a.cone.slope.agrees b.cone.slope &&
    vec a.velocity b.velocity && vec a.gradient.first b.gradient.first &&
    vec a.gradient.second b.gradient.second && vec a.gradient.third b.gradient.third &&
    a.divergence.agrees b.divergence && a.dvdsMean.agrees b.dvdsMean &&
    a.dvdsMax.agrees b.dvdsMax && a.volume.agrees b.volume && a.gamma.agrees b.gamma &&
    a.gammaCenter.agrees b.gammaCenter && a.fudge.agrees b.fudge && a.standing == b.standing

def allAgree (xs ys : List Cell) : Bool :=
  xs.length == ys.length && (xs.zip ys).all fun (a, b) => a.agrees b

end Cell

end StellarWind
