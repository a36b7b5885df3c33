import StellarWind.Number.Functions

/-!
# Vectors in space

Triples of components. On triples of `Float` there is the usual arithmetic,
with sums taken from the first component to the last.
-/

namespace StellarWind

structure Vec3 (α : Type) where
  x : α
  y : α
  z : α
deriving DecidableEq, Inhabited

namespace Vec3

def map {α β : Type} (f : α → β) (v : Vec3 α) : Vec3 β := ⟨f v.x, f v.y, f v.z⟩

def toList {α : Type} (v : Vec3 α) : List α := [v.x, v.y, v.z]

def ofList? {α : Type} : List α → Option (Vec3 α)
  | [x, y, z] => some ⟨x, y, z⟩
  | _ => none

@[simp] theorem ofList?_toList {α : Type} (v : Vec3 α) : ofList? v.toList = some v := rfl

/-- The values of stored components. -/
def value (v : Vec3 Binary64) : Vec3 Float := v.map Binary64.toFloat

/-- The stored form of computed components. -/
def store [Elementary] (v : Vec3 Float) : Vec3 Binary64 := v.map Binary64.store

/-- The sum of stored vectors, component by component. -/
def plus [Addition] (u v : Vec3 Binary64) : Vec3 Binary64 :=
  ⟨Addition.plus u.x v.x, Addition.plus u.y v.y, Addition.plus u.z v.z⟩

/-! ### Arithmetic -/

def zero : Vec3 Float := ⟨0, 0, 0⟩

def add (u v : Vec3 Float) : Vec3 Float := ⟨u.x + v.x, u.y + v.y, u.z + v.z⟩

def scale (v : Vec3 Float) (k : Float) : Vec3 Float := ⟨v.x * k, v.y * k, v.z * k⟩

def dot (u v : Vec3 Float) : Float := u.x * v.x + u.y * v.y + u.z * v.z

def norm (v : Vec3 Float) : Float := (v.dot v).sqrt

/-- The vector of length one in the same direction, or zero for a vector
without one. -/
def unit (v : Vec3 Float) : Vec3 Float :=
  let n := v.norm
  if n ≤ 0 then zero else ⟨v.x / n, v.y / n, v.z / n⟩

end Vec3

end StellarWind
