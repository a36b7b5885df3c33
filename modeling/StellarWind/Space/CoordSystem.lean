import StellarWind.Space.Vec3

/-!
# Coordinate systems

A domain is divided into spherical shells or into cylindrical columns; flux is
recorded in components of the cylindrical frame.
-/

namespace StellarWind

/-- How a domain is divided. -/
inductive CoordSystem where
  | spherical
  | cylindrical
deriving DecidableEq, Repr, Inhabited

namespace CoordSystem

def name : CoordSystem → String
  | spherical => "spherical"
  | cylindrical => "cylindrical"

def ofName? : String → Option CoordSystem
  | "spherical" => some spherical
  | "cylindrical" => some cylindrical
  | _ => none

end CoordSystem

namespace Vec3

/-- The components of a vector in the cylindrical frame at a position: away
from the axis, around the axis, and along it. On the axis the frame is the one
of the first coordinate. -/
def cylindrical [Elementary] (position vector : Vec3 Float) : Vec3 Float :=
  let rho := Elementary.hypot position.x position.y
  let cosPhi := if rho > 0 then position.x / rho else 1
  let sinPhi := if rho > 0 then position.y / rho else 0
  { x := cosPhi * vector.x + sinPhi * vector.y
    y := -sinPhi * vector.x + cosPhi * vector.y
    z := vector.z }

end Vec3

end StellarWind
