import StellarWind.Wire.Schema

/-!
# Registered types

Composite types are registered before they are sent. A registry hands out
handles in order and never twice.
-/

namespace StellarWind

structure Registry where
  next : Nat
  /-- The live registrations. -/
  types : List (Nat × Composite)

namespace Registry

def empty : Registry := ⟨0, []⟩

def size (r : Registry) : Nat := r.types.length

/-- Check a layout and register it. -/
def register (r : Registry) (c : Composite) : Except (Abort ExchangeError) (Nat × Registry) := do
  c.check
  return (r.next, ⟨r.next + 1, (r.next, c) :: r.types⟩)

def layout (r : Registry) (handle : Nat) : Except ExchangeError Composite :=
  match r.types.lookup handle with
  | some c => .ok c
  | none => .error (.unknownType handle)

def free (r : Registry) (handle : Nat) : Except ExchangeError Registry := do
  discard (r.layout handle)
  return { r with types := r.types.filter (·.1 != handle) }

/-- The number of bytes of `count` values of a registered type. -/
def bytes (r : Registry) (count handle : Nat) : Except (Abort ExchangeError) Nat := do
  let c ← reported (r.layout handle)
  faulting (checked (count * c.bytes))

end Registry

/-- The number of bytes of `count` scalars. -/
def scalarBytes (count : Nat) (kind : ScalarKind) : Except Fault Nat :=
  checked (count * kind.size)

end StellarWind
