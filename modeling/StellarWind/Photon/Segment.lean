import StellarWind.Space.CoordSystem

/-!
# Path segments

A photon packet crosses a cell in straight steps. A `Segment` is one step; its
weighted length and its flux are what a cell's tallies add up.
-/

namespace StellarWind

/-- The identity of a photon packet: the cell it was assigned to and its number. -/
structure PacketId where
  cell : Nat
  packet : Nat
deriving DecidableEq, Repr

/-- Where a photon packet was emitted. -/
inductive Origin where
  | star
  | boundaryLayer
  | disk
  | wind
  | agn
deriving DecidableEq, Repr, Inhabited

def Origin.all : List Origin := [.star, .boundaryLayer, .disk, .wind, .agn]

/-- One straight step of a photon packet. -/
structure Segment where
  freq : Float
  weight : Float
  length : Float
  direction : Vec3 Float
  position : Vec3 Float
  scatters : Nat
  id : PacketId
  origin : Origin

namespace Segment

/-- The weight times the length, which is what tallies add up. -/
def weighted (s : Segment) : Float := s.weight * s.length

def midpoint (s : Segment) : Vec3 Float :=
  s.position.add (s.direction.unit.scale (0.5 * s.length))

def direct (s : Segment) : Bool := s.scatters == 0

/-- The flux of a segment in the frame of its midpoint. In a spherical domain
only the radial part is kept. In a cylindrical one a segment that starts below
the plane is folded to the upper side. -/
def flux [Elementary] (s : Segment) : CoordSystem → Vec3 Float
  | .spherical =>
    let v := s.direction.unit.scale s.weighted
    let m := s.midpoint
    let r := m.norm
    ⟨if r > 0 then v.dot m / r else 0, 0, 0⟩
  | .cylindrical =>
    let v := Vec3.cylindrical s.midpoint (s.direction.unit.scale s.weighted)
    if s.position.z < 0 then { v with z := -v.z } else v

end Segment

end StellarWind
