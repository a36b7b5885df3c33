import StellarWind.Fault
import StellarWind.Wire.Composite

/-!
# Record schemas

A schema is a list of fields of a record type. Packing, unpacking and sizing all
walk the same list, so they agree on what a record is on the wire.

Unpacking writes field by field into a target record. A failure keeps the
fields that were written before, which is why a `Filling` carries the record
along with the buffer.
-/

namespace StellarWind

/-- A computation that fills a record from a buffer; what was done before a
failure stays done. -/
abbrev Filling (ρ : Type) := ExceptT ExchangeError (StateM (ρ × Buffer))

namespace Filling

variable {ρ α : Type}

def on (f : Filling ρ α) (r : ρ) (b : Buffer) : Except ExchangeError α × ρ × Buffer :=
  f.run.run (r, b)

/-- Work on the buffer alone. -/
def ofTransfer (t : Transfer α) : Filling ρ α :=
  ExceptT.mk fun (r, b) =>
    let (result, b') := t.on b
    (result, (r, b'))

/-- Change the record, or leave it and fail. -/
def update (f : ρ → Except ExchangeError ρ) : Filling ρ Unit :=
  ExceptT.mk fun (r, b) =>
    match f r with
    | .ok r' => (.ok (), (r', b))
    | .error e => (.error e, (r, b))

def record : Filling ρ ρ := ExceptT.mk fun (r, b) => (.ok r, (r, b))

end Filling

/-- Unpack the members of a value, each of the kind that the layout declares, and hand them to
the value that they are for. -/
def Composite.unpack {ρ : Type} (c : Composite) (set : ρ → Nat → Scalar → Except ExchangeError ρ) :
    Filling ρ Unit :=
  c.members.zipIdx.forM fun (m, i) => do
    let value ← Filling.ofTransfer (Transfer.unpackScalar m.kind)
    Filling.update (set · i value)

/-- How a field is read from a record and written into one. -/
inductive Access (ρ : Type) where
  /-- An integer whose decoder may refuse a value. -/
  | int (get : ρ → Int32) (set : ρ → Int32 → Except ExchangeError ρ)
  /-- A count that travels as an integer. -/
  | index (get : ρ → Nat) (set : ρ → Nat → ρ)
  | double (get : ρ → Binary64) (set : ρ → Binary64 → ρ)
  /-- A run of doubles of declared length; `room` is the length of the run that is written to. -/
  | doubles (count : Nat) (get : ρ → List Binary64) (room : ρ → Nat)
      (set : ρ → List Binary64 → ρ)
  /-- A value of a composite type, member by member. -/
  | composite (layout : Composite) (get : ρ → Nat → Scalar)
      (set : ρ → Nat → Scalar → Except ExchangeError ρ)

structure Field (ρ : Type) where
  name : String
  access : Access ρ

namespace Field

variable {ρ : Type}

/-- The number of integers outside composite values. -/
def ints (f : Field ρ) : Nat :=
  match f.access with
  | .int _ _ | .index _ _ => 1
  | _ => 0

def doubles (f : Field ρ) : Nat :=
  match f.access with
  | .double _ _ => 1
  | .doubles count _ _ _ => count
  | _ => 0

def layout? (f : Field ρ) : Option Composite :=
  match f.access with
  | .composite layout _ _ => some layout
  | _ => none

/-- The error of a run of doubles that has not its declared length. -/
def checkSize (f : Field ρ) (declared actual : Nat) : Except ExchangeError Unit :=
  if declared = actual then .ok ()
  else .error (.invalidField f.name (.wrongSize declared actual))

def pack (f : Field ρ) (r : ρ) : Transfer Unit :=
  match f.access with
  | .int get _ => Transfer.packInt (get r)
  | .index get _ => do
    if get r < Count.positive32 then Transfer.packInt (Int32.ofNat (get r))
    else throw (.invalidField f.name (.indexTooLarge (get r)))
  | .double get _ => Transfer.packDouble (get r)
  | .doubles count get _ _ => do
    liftM (f.checkSize count (get r).length)
    Transfer.packDoubles (get r)
  | .composite layout get _ => layout.pack (get r)

def unpack (f : Field ρ) : Filling ρ Unit :=
  match f.access with
  | .int _ set => do
    let wire ← Filling.ofTransfer Transfer.unpackInt
    Filling.update (set · wire)
  | .index _ set => do
    let wire ← Filling.ofTransfer Transfer.unpackInt
    if wire < 0 then throw (.invalidField f.name (.negativeIndex wire.toInt))
    else Filling.update fun r => .ok (set r wire.toNatClampNeg)
  | .double _ set => do
    let value ← Filling.ofTransfer Transfer.unpackDouble
    Filling.update fun r => .ok (set r value)
  | .doubles count _ room set => do
    liftM (f.checkSize count (room (← Filling.record)))
    let values ← Filling.ofTransfer (Transfer.unpackDoubles count)
    Filling.update fun r => .ok (set r values)
  | .composite layout _ set => layout.unpack set

end Field

/-- The fields of a record type in the order of transmission. -/
structure Schema (ρ : Type) where
  name : String
  fields : List (Field ρ)

namespace Schema

variable {ρ : Type}

/-- The number of integers of a record outside composite values. -/
def ints (s : Schema ρ) : Except Fault Nat := checkedSum (s.fields.map Field.ints)

def doubles (s : Schema ρ) : Except Fault Nat := checkedSum (s.fields.map Field.doubles)

/-- The layouts of the composite fields, in order. -/
def layouts (s : Schema ρ) : List Composite := s.fields.filterMap Field.layout?

def recordBytes (s : Schema ρ) : Except Fault Nat := do
  let ints ← s.ints
  let doubles ← s.doubles
  let composites ← checkedSum (s.layouts.map Composite.bytes)
  let intBytes ← checked (ints * ScalarKind.int.size)
  let doubleBytes ← checked (doubles * ScalarKind.double.size)
  let scalars ← checked (intBytes + doubleBytes)
  checked (scalars + composites)

def pack (s : Schema ρ) (r : ρ) : Transfer Unit := s.fields.forM (·.pack r)

def unpack (s : Schema ρ) : Filling ρ Unit := s.fields.forM Field.unpack

end Schema

end StellarWind
