import StellarWind.Space.Vec3
import StellarWind.Wire.Schema

/-!
# Cells of the wind

The geometry and kinematics of one cell, and how it travels: `Cell.schema` lists
its fields in the order of transmission.
-/

namespace StellarWind

/-! ### Parts of a cell -/

/-- A cone `z = offset + slope * rho` that bounds a cell. -/
structure Cone where
  offset : Binary64
  slope : Binary64
deriving DecidableEq

namespace Cone

def zero : Cone := ⟨.zero, .zero⟩

/-- The layout of a cone: two doubles side by side. -/
def layout : Composite where
  name := "cone_boundary"
  members := [⟨"offset", .double, 0⟩, ⟨"slope", .double, 8⟩]
  extent := 16

def get (c : Cone) : Nat → Scalar
  | 0 => .double c.offset
  | _ => .double c.slope

def set (c : Cone) : Nat → Scalar → Except ExchangeError Cone
  | 0, value => do return { c with offset := ← value.toDouble "offset" }
  | 1, value => do return { c with slope := ← value.toDouble "slope" }
  | index, _ => .error (.invalidField "cone_boundary" (.noMember index))

end Cone

/-- A square matrix by its columns. -/
structure Tensor3 (α : Type) where
  first : Vec3 α
  second : Vec3 α
  third : Vec3 α
deriving DecidableEq, Inhabited

namespace Tensor3

def toList {α : Type} (t : Tensor3 α) : List α :=
  t.first.toList ++ t.second.toList ++ t.third.toList

def ofList? {α : Type} : List α → Option (Tensor3 α)
  | [a, b, c, d, e, f, g, h, i] => some ⟨⟨a, b, c⟩, ⟨d, e, f⟩, ⟨g, h, i⟩⟩
  | _ => none

@[simp] theorem ofList?_toList {α : Type} (t : Tensor3 α) : ofList? t.toList = some t := rfl

/-- The matrix with `k` on the diagonal and `zero` elsewhere. -/
def diagonal {α : Type} (zero k : α) : Tensor3 α :=
  ⟨⟨k, zero, zero⟩, ⟨zero, k, zero⟩, ⟨zero, zero, k⟩⟩

end Tensor3

/-- How a cell stands to the wind. -/
inductive Standing where
  /-- Entirely inside. -/
  | all
  | partly
  | outside
  | ignored
  | unassigned
  /-- A code without a meaning here. -/
  | other (code : Int32)
deriving DecidableEq

namespace Standing

def code : Standing → Int32
  | all => 0
  | partly => 1
  | outside => -1
  | ignored => -2
  | unassigned => -999
  | other code => code

def ofCode (code : Int32) : Standing :=
  if code = 0 then all
  else if code = 1 then partly
  else if code = -1 then outside
  else if code = -2 then ignored
  else if code = -999 then unassigned
  else other code

/-- Whether photons are followed through the cell. -/
def isActive : Standing → Bool
  | all | partly => true
  | _ => false

theorem code_ofCode (code : Int32) : (ofCode code).code = code := by
  unfold ofCode
  repeat' split
  all_goals simp_all [Standing.code]

end Standing

/-! ### Cells -/

structure Cell where
  domain : Nat
  domainIndex : Nat
  tallyIndex : Nat
  /-- The inner corner. -/
  position : Vec3 Binary64
  centroid : Vec3 Binary64
  r : Binary64
  rCenter : Binary64
  theta : Binary64
  thetaCenter : Binary64
  dtheta : Binary64
  dr : Binary64
  cone : Cone
  velocity : Vec3 Binary64
  gradient : Tensor3 Binary64
  divergence : Binary64
  dvdsMean : Binary64
  dvdsMax : Binary64
  volume : Binary64
  gamma : Binary64
  gammaCenter : Binary64
  /-- The step that carries a photon across a boundary. -/
  fudge : Binary64
  standing : Standing
deriving DecidableEq

namespace Cell

def origin : Vec3 Binary64 := ⟨.zero, .zero, .zero⟩

def blank (domain domainIndex tallyIndex : Nat) : Cell where
  domain := domain
  domainIndex := domainIndex
  tallyIndex := tallyIndex
  position := origin
  centroid := origin
  r := .zero
  rCenter := .zero
  theta := .zero
  thetaCenter := .zero
  dtheta := .zero
  dr := .zero
  cone := .zero
  velocity := origin
  gradient := ⟨origin, origin, origin⟩
  divergence := .zero
  dvdsMean := .zero
  dvdsMax := .zero
  volume := .zero
  gamma := .zero
  gammaCenter := .zero
  fudge := .zero
  standing := .unassigned

def vectorField (name : String) (get : Cell → Vec3 Binary64)
    (set : Cell → Vec3 Binary64 → Cell) : Field Cell :=
  ⟨name, .doubles 3 (fun c => (get c).toList) (fun _ => 3) fun c xs =>
    match Vec3.ofList? xs with
    | some v => set c v
    | none => c⟩

def tensorField (name : String) (get : Cell → Tensor3 Binary64)
    (set : Cell → Tensor3 Binary64 → Cell) : Field Cell :=
  ⟨name, .doubles 9 (fun c => (get c).toList) (fun _ => 9) fun c xs =>
    match Tensor3.ofList? xs with
    | some t => set c t
    | none => c⟩

/-- The fields of a cell in the order of transmission. -/
def schema : Schema Cell where
  name := "wind_cell"
  fields := [
    ⟨"domain", .index (·.domain) fun c v => { c with domain := v }⟩,
    ⟨"domain_index", .index (·.domainIndex) fun c v => { c with domainIndex := v }⟩,
    ⟨"plasma_index", .index (·.tallyIndex) fun c v => { c with tallyIndex := v }⟩,
    vectorField "position" (·.position) fun c v => { c with position := v },
    vectorField "centroid" (·.centroid) fun c v => { c with centroid := v },
    ⟨"r", .double (·.r) fun c v => { c with r := v }⟩,
    ⟨"r_center", .double (·.rCenter) fun c v => { c with rCenter := v }⟩,
    ⟨"theta", .double (·.theta) fun c v => { c with theta := v }⟩,
    ⟨"theta_center", .double (·.thetaCenter) fun c v => { c with thetaCenter := v }⟩,
    ⟨"dtheta", .double (·.dtheta) fun c v => { c with dtheta := v }⟩,
    ⟨"dr", .double (·.dr) fun c v => { c with dr := v }⟩,
    ⟨"cone", .composite Cone.layout (·.cone.get) fun c i v => do
      return { c with cone := ← c.cone.set i v }⟩,
    vectorField "velocity" (·.velocity) fun c v => { c with velocity := v },
    tensorField "velocity_gradient" (·.gradient) fun c t => { c with gradient := t },
    ⟨"velocity_divergence", .double (·.divergence) fun c v => { c with divergence := v }⟩,
    ⟨"dvds_ave", .double (·.dvdsMean) fun c v => { c with dvdsMean := v }⟩,
    ⟨"dvds_max", .double (·.dvdsMax) fun c v => { c with dvdsMax := v }⟩,
    ⟨"volume", .double (·.volume) fun c v => { c with volume := v }⟩,
    ⟨"gamma", .double (·.gamma) fun c v => { c with gamma := v }⟩,
    ⟨"gamma_center", .double (·.gammaCenter) fun c v => { c with gammaCenter := v }⟩,
    ⟨"fudge_distance", .double (·.fudge) fun c v => { c with fudge := v }⟩,
    ⟨"in_wind", .int (·.standing.code) fun c v => .ok { c with standing := .ofCode v }⟩]

end Cell

end StellarWind
