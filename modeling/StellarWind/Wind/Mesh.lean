import StellarWind.Decimal.Text
import StellarWind.Fault
import StellarWind.Number.Functions
import StellarWind.Photon.Energy
import StellarWind.Plan.Basic
import StellarWind.Space.CoordSystem
import StellarWind.Wind.Cell

/-!
# Meshes

A mesh divides one domain into spherical shells, whose radii grow by a constant
factor, or into cylindrical columns and rows of equal size. The wind moves
outwards with a speed proportional to the distance. `Mesh.define` gives a cell
its geometry and its kinematics from the mesh and its number alone.
-/

namespace StellarWind

/-- The division of one domain. -/
structure Mesh where
  system : CoordSystem
  /-- The number of shells or of columns. -/
  columns : Nat
  /-- The number of rows; shells have none. -/
  rows : Nat
  rMin : Float
  /-- The outer edge, and the top of the columns. -/
  rMax : Float
  /-- The speed at the reference radius. -/
  speed : Float
  radius : Float
  /-- The step across boundaries as a part of the smallest extent. -/
  fudgeFraction : Float

/-- What is wrong with a mesh. -/
inductive MeshProblem where
  | empty (columns rows : Nat)
  | badEdges (rMin rMax : Float)
  | badRadius (radius : Float)
  | badFudge (fraction : Float)
  | tooFast (speed : Float)

def MeshProblem.message : MeshProblem → String
  | empty columns rows => "empty mesh " ++ toString columns ++ "x" ++ toString rows
  | badEdges rMin rMax =>
    "edges must satisfy 0 < r_min < r_max, got " ++ NumberStyle.message.render rMin ++ " and " ++
      NumberStyle.message.render rMax
  | badRadius radius =>
    "reference radius must be positive, got " ++ NumberStyle.message.render radius
  | badFudge fraction =>
    "fudge fraction must lie in [0, 1), got " ++ NumberStyle.message.render fraction
  | tooFast speed => "velocity law reaches " ++ scientificText 3 speed ++ " cm/s at the edge"

/-- Why cells could not be defined. -/
inductive MeshError where
  | invalid (problem : MeshProblem)
  | rangeOutOfBounds (range : CellRange) (cells : Nat)

def MeshError.message : MeshError → String
  | invalid problem => "invalid grid layout: " ++ problem.message
  | rangeOutOfBounds range cells =>
    "cell range " ++ toString range.start ++ ".." ++ toString range.stop ++
      " is outside a domain of " ++ toString cells ++ " cells"

def MeshError.kind : MeshError → String
  | invalid _ => "InvalidLayout"
  | rangeOutOfBounds _ _ => "RangeOutOfBounds"

namespace Mesh

def default : Mesh where
  system := .cylindrical
  columns := 10
  rows := 10
  rMin := 1e9
  rMax := 1e11
  speed := 1e7
  radius := 1e10
  fudgeFraction := 1e-3

/-- Shells between two radii. -/
def shells (count : Nat) (rMin rMax : Float) : Mesh :=
  { default with system := .spherical, columns := count, rows := 1, rMin, rMax }

def size (m : Mesh) : Except Fault Nat :=
  match m.system with
  | .spherical => .ok m.columns
  | .cylindrical => checked (m.columns * m.rows)

/-- The speed at the far end of the domain. -/
def farSpeed (m : Mesh) : Float :=
  let far := match m.system with
    | .spherical => m.rMax
    | .cylindrical => m.rMax * sqrtTwo
  (m.speed * far / m.radius).abs

def problem? (m : Mesh) : Option MeshProblem :=
  if m.columns == 0 || (m.system == .cylindrical && m.rows == 0) then
    some (.empty m.columns m.rows)
  else if !(m.rMin > 0 && m.rMax > m.rMin) then some (.badEdges m.rMin m.rMax)
  else if m.radius ≤ 0 then some (.badRadius m.radius)
  else if !(0 ≤ m.fudgeFraction && m.fudgeFraction < 1) then some (.badFudge m.fudgeFraction)
  else if lightSpeed ≤ m.farSpeed then some (.tooFast m.farSpeed)
  else none

def check (m : Mesh) : Except MeshError Unit :=
  match m.problem? with
  | some problem => .error (.invalid problem)
  | none => .ok ()

/-! ### Kinematics -/

def velocityAt (m : Mesh) (x : Vec3 Float) : Vec3 Float := x.scale (m.speed / m.radius)

/-- The factor by which time is stretched at a velocity. -/
def lorentzFactor (v : Vec3 Float) : Float :=
  1 / (1 - v.dot v / (lightSpeed * lightSpeed)).sqrt

/-- The motion of a cell whose place is known. -/
def withMotion [Elementary] (m : Mesh) (c : Cell) : Cell :=
  let rate := m.speed / m.radius
  let velocity := m.velocityAt c.position.value
  { c with
    velocity := velocity.store
    gradient := Tensor3.diagonal (Binary64.store (0 * rate)) (Binary64.store rate)
    divergence := (3 * rate : Float)
    dvdsMean := rate.abs
    dvdsMax := rate.abs
    gamma := lorentzFactor velocity
    gammaCenter := lorentzFactor (m.velocityAt c.centroid.value) }

/-! ### Geometry -/

/-- The inner radius of a shell. -/
def shellEdge [Elementary] (m : Mesh) (i : Nat) : Float :=
  m.rMin * Elementary.pow (m.rMax / m.rMin) (Float.ofNat i / Float.ofNat m.columns)

def columnEdge (m : Mesh) (i : Nat) : Float :=
  m.rMin + (m.rMax - m.rMin) * Float.ofNat i / Float.ofNat m.columns

def rowEdge (m : Mesh) (k : Nat) : Float := m.rMax * Float.ofNat k / Float.ofNat m.rows

def cube (x : Float) : Float := x * x * x

/-- The angle from the axis in degrees. -/
def polarAngle [Elementary] (rho z : Float) : Float := degrees (Elementary.atan2 rho z)

/-- A shell by its number. -/
def shell [Elementary] (m : Mesh) (i : Nat) (c : Cell) : Cell :=
  let rIn := m.shellEdge i
  let rOut := m.shellEdge (i + 1)
  let rMid := 0.5 * (rIn + rOut)
  m.withMotion { c with
    position := (⟨rIn, 0, 0⟩ : Vec3 Float).store
    centroid := (⟨rMid, 0, 0⟩ : Vec3 Float).store
    r := rIn
    rCenter := rMid
    theta := .zero
    thetaCenter := .zero
    dtheta := .zero
    dr := (rOut - rIn : Float)
    cone := .zero
    volume := (4.0 / 3.0 * pi * (cube rOut - cube rIn) : Float)
    fudge := (m.fudgeFraction * (rOut - rIn) : Float)
    standing := .all }

/-- A ring of a column by its number, counted row by row. -/
def ring [Elementary] (m : Mesh) (n : Nat) (c : Cell) : Cell :=
  let i := n / m.rows
  let k := n % m.rows
  let rhoIn := m.columnEdge i
  let rhoOut := m.columnEdge (i + 1)
  let zIn := m.rowEdge k
  let zOut := m.rowEdge (k + 1)
  let position : Vec3 Float := ⟨rhoIn, 0, zIn⟩
  let centroid : Vec3 Float := ⟨0.5 * (rhoIn + rhoOut), 0, 0.5 * (zIn + zOut)⟩
  m.withMotion { c with
    position := position.store
    centroid := centroid.store
    r := position.norm
    rCenter := centroid.norm
    theta := polarAngle rhoIn zIn
    thetaCenter := polarAngle centroid.x centroid.z
    dtheta := (polarAngle rhoOut zIn - polarAngle rhoIn zOut).abs
    dr := (rhoOut - rhoIn : Float)
    cone := ⟨.zero, (zIn / rhoIn : Float)⟩
    volume := (2.0 * pi * (rhoOut * rhoOut - rhoIn * rhoIn) * (zOut - zIn) : Float)
    fudge := (m.fudgeFraction * least (rhoOut - rhoIn) (zOut - zIn) : Float)
    standing := .all }

/-- Define a cell by its number in the domain. Its indices stay. -/
def define [Elementary] (m : Mesh) (n : Nat) (c : Cell) : Cell :=
  match m.system with
  | .spherical => m.shell n c
  | .cylindrical => m.ring n c

/-- Define the cells of a range among the first `count` ones of a domain. -/
def defineWithin [Elementary] (m : Mesh) (count : Nat) (range : CellRange) (cells : List Cell) :
    Except MeshError (List Cell) :=
  if range.stop < range.start ∨ count < range.stop then .error (.rangeOutOfBounds range count)
  else .ok (cells.mapIdx fun n c => if range.contains n then m.define n c else c)

def defineRange [Elementary] (m : Mesh) (range : CellRange) (cells : List Cell) :
    Except (Abort MeshError) (List Cell) := do
  reported m.check
  let count ← faulting m.size
  reported (m.defineWithin (min count cells.length) range cells)

end Mesh

end StellarWind
