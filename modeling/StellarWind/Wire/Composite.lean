import StellarWind.Fault
import StellarWind.Number.Count
import StellarWind.Wire.Buffer

/-!
# Composite types

A composite type is a few scalars that are stored together. Its layout says
where in the stored form each member stands; on the wire the members follow
each other without gaps.
-/

namespace StellarWind

structure Member where
  name : String
  kind : ScalarKind
  /-- Where the member stands in the stored form. -/
  offset : Nat
deriving DecidableEq, Repr

/-- The layout of a composite type. -/
structure Composite where
  name : String
  members : List Member
  /-- The size of the stored form, gaps included. -/
  extent : Nat
deriving DecidableEq, Repr

namespace Composite

/-- The number of bytes on the wire. -/
def bytes (c : Composite) : Nat := (c.members.map (·.kind.size)).foldr (· + ·) 0

/-- Check members against the end of the one before. -/
def checkFrom (c : Composite) : Nat → List Member → Except (Abort ExchangeError) Unit
  | _, [] => .ok ()
  | previous, m :: rest =>
    if m.offset < previous then .error (.error (.invalidLayout c.name (.overlap m.name m.offset)))
    else do
      let stop ← faulting (checked (m.offset + m.kind.size))
      if c.extent < stop then
        .error (.error (.invalidLayout c.name (.beyondExtent m.name stop c.extent)))
      else checkFrom c stop rest

/-- Check that there are members, in order, apart and inside the extent. -/
def check (c : Composite) : Except (Abort ExchangeError) Unit :=
  if c.members.isEmpty then .error (.error (.invalidLayout c.name .noMembers))
  else c.checkFrom 0 c.members

/-- Pack the members of a value, each of the kind that the layout declares. -/
def pack (c : Composite) (get : Nat → Scalar) : Transfer Unit :=
  c.members.zipIdx.forM fun (m, i) => do
    let value := get i
    if value.kind ≠ m.kind then
      throw (.invalidField m.name (.wrongKind c.name m.kind value.kind))
    Transfer.packScalar value

end Composite

end StellarWind
