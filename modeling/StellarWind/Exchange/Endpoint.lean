import StellarWind.Wire.Registry

/-!
# Endpoints

What a worker needs from the means of transport: its rank, the size of its
group, registered types, and a broadcast that every worker of the group enters
in the same order. A broadcast takes the local bytes and gives the bytes that
arrived; when it fails the local bytes stay, unless the endpoint leaves others.
-/

namespace StellarWind

/-- A worker's access to its group, apart from the broadcast. -/
class Endpoint (σ : Type) where
  rank : σ → Nat
  size : σ → Nat
  register : Composite → σ → Except (Abort ExchangeError) Nat × σ
  free : Nat → σ → Except ExchangeError Unit × σ
  /-- The number of bytes of a count of values of a registered type. -/
  compositeBytes : σ → Nat → Nat → Except (Abort ExchangeError) Nat

/-- An endpoint that can broadcast on its own. -/
class Channel (σ : Type) extends Endpoint σ where
  /-- Enter the round of worker `root` with the local bytes. -/
  broadcast : List UInt8 → Nat → σ → Except ExchangeError (List UInt8) × σ
  /-- What a round that fails leaves in the place of the local bytes. -/
  leftover : List UInt8 → Nat → σ → List UInt8 := fun bytes _ _ => bytes

/-- A worker's place in a group, with the types that it has registered. -/
structure Seat where
  rank : Nat
  size : Nat
  registry : Registry

namespace Seat

/-- Register a type; a layout that is refused changes nothing. -/
def register (c : Composite) (s : Seat) : Except (Abort ExchangeError) Nat × Seat :=
  match s.registry.register c with
  | .ok (handle, registry) => (.ok handle, { s with registry })
  | .error e => (.error e, s)

def free (handle : Nat) (s : Seat) : Except ExchangeError Unit × Seat :=
  match s.registry.free handle with
  | .ok registry => (.ok (), { s with registry })
  | .error e => (.error e, s)

instance : Endpoint Seat where
  rank := Seat.rank
  size := Seat.size
  register := register
  free := free
  compositeBytes s := s.registry.bytes

/-- The seats of a group, with nothing registered. A group has at least one. -/
def group (size : Nat) : Except ExchangeError (List Seat) :=
  if size = 0 then .error .emptyGroup
  else .ok ((List.range size).map fun rank => ⟨rank, size, .empty⟩)

end Seat

/-- The seat of a worker that is alone. -/
structure Solo where
  seat : Seat

namespace Solo

def empty : Solo := ⟨⟨0, 1, .empty⟩⟩

/-- The broadcast of a worker that is alone: only its own round exists. -/
def broadcast (bytes : List UInt8) (root : Nat) : Except ExchangeError (List UInt8) :=
  if root = 0 then .ok bytes else .error (.invalidRank root 1)

instance : Channel Solo where
  rank s := s.seat.rank
  size s := s.seat.size
  register c s := let (result, seat) := s.seat.register c; (result, ⟨seat⟩)
  free handle s := let (result, seat) := s.seat.free handle; (result, ⟨seat⟩)
  compositeBytes s := s.seat.registry.bytes
  broadcast bytes root s := (Solo.broadcast bytes root, s)

end Solo

/-- The number of bytes that carry up to `limit` records with their count and
indices, by the sizes that the endpoint gives. -/
def Schema.capacity {ρ σ : Type} [Endpoint σ] (s : Schema ρ) (endpoint : σ) (handles : List Nat)
    (limit : Nat) : Except (Abort ExchangeError) Nat := do
  let ints ← faulting s.ints
  let doubles ← faulting s.doubles
  let ints ← faulting (checked (ints + 1))
  let ints ← faulting (checked (limit * ints))
  let ints ← faulting (checked (1 + ints))
  let intBytes ← faulting (scalarBytes ints .int)
  let doubles ← faulting (checked (limit * doubles))
  let doubleBytes ← faulting (scalarBytes doubles .double)
  let scalars ← faulting (checked (intBytes + doubleBytes))
  handles.foldlM (fun total handle => do
    let bytes ← Endpoint.compositeBytes endpoint limit handle
    faulting (checked (total + bytes))) scalars

end StellarWind
