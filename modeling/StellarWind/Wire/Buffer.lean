import StellarWind.Number.Binary64
import StellarWind.Wire.Bytes
import StellarWind.Wire.Error

/-!
# Buffers

A buffer is a row of bytes with a cursor: the bytes behind the cursor, the
nearest first, and the bytes ahead of it. Packing replaces the bytes ahead and
steps over them, unpacking reads them and steps over them, and neither touches
anything else. A step that needs more bytes than there are ahead fails and
leaves the buffer as it was.

`Transfer` is a computation on a buffer that keeps what was done before a
failure.
-/

namespace StellarWind

/-- A row of bytes with a cursor. -/
structure Buffer where
  /-- The bytes before the cursor, from the cursor back to the start. -/
  behind : List UInt8
  ahead : List UInt8
deriving DecidableEq

inductive Scalar where
  | int (value : Int32)
  | double (value : Binary64)
deriving DecidableEq

namespace Scalar

def kind : Scalar → ScalarKind
  | int _ => .int
  | double _ => .double

/-- The double that a field expects. -/
def toDouble (field : String) : Scalar → Except ExchangeError Binary64
  | double value => .ok value
  | int _ => .error (.invalidField field .notADouble)

end Scalar

namespace Buffer

/-- The capacity from which on a buffer cannot be had, `2 ^ 62`. -/
def limit : Nat := 4611686018427387904

/-- A buffer of zeros with the cursor at its start. -/
def allocate (capacity : Nat) : Except ExchangeError Buffer :=
  if capacity < limit then .ok ⟨[], List.replicate capacity 0⟩
  else .error (.allocationFailed capacity)

def contents (b : Buffer) : List UInt8 := b.behind.reverse ++ b.ahead

def capacity (b : Buffer) : Nat := b.behind.length + b.ahead.length

def position (b : Buffer) : Nat := b.behind.length

def rewind (b : Buffer) : Buffer := ⟨[], b.contents⟩

/-- Put bytes over the contents from an offset on, cut where the buffer ends. The
cursor stays. -/
def overwrite (b : Buffer) (offset : Nat) (bytes : List UInt8) : Buffer :=
  let old := b.contents
  let new := old.take offset ++ bytes.take (old.length - offset) ++ old.drop (offset + bytes.length)
  ⟨(new.take b.position).reverse, new.drop b.position⟩

/-- The error of a step that needs more bytes than there are ahead. -/
def overflow (b : Buffer) (requested : Nat) : ExchangeError :=
  .bufferOverflow b.capacity b.position requested

end Buffer

/-- A computation on a buffer that may fail; what was done before stays done. -/
abbrev Transfer := ExceptT ExchangeError (StateM Buffer)

namespace Transfer

def on {α : Type} (t : Transfer α) (b : Buffer) : Except ExchangeError α × Buffer := t.run.run b

/-- Step over `n` bytes and give them. -/
def take (n : Nat) : Transfer (List UInt8) :=
  ExceptT.mk fun b =>
    let front := b.ahead.take n
    if front.length = n then
      (.ok front, { behind := front.reverse ++ b.behind, ahead := b.ahead.drop n })
    else (.error (b.overflow n), b)

/-- Step over as many bytes as are given, replacing them. -/
def put (bytes : List UInt8) : Transfer Unit :=
  ExceptT.mk fun b =>
    if (b.ahead.take bytes.length).length = bytes.length then
      (.ok (), { behind := bytes.reverse ++ b.behind, ahead := b.ahead.drop bytes.length })
    else (.error (b.overflow bytes.length), b)

/-! ### Scalars -/

def intBytes (value : Int32) : List UInt8 := littleEndian 4 value.toUInt32.toNat

def intOfBytes (bytes : List UInt8) : Int32 := (UInt32.ofNat (ofLittleEndian bytes)).toInt32

def doubleBytes (value : Binary64) : List UInt8 := littleEndian 8 value.bits.toNat

def doubleOfBytes (bytes : List UInt8) : Binary64 := ⟨UInt64.ofNat (ofLittleEndian bytes)⟩

def packInt (value : Int32) : Transfer Unit := put (intBytes value)

def packDouble (value : Binary64) : Transfer Unit := put (doubleBytes value)

/-- Pack a run of doubles, all or none. -/
def packDoubles (values : List Binary64) : Transfer Unit := put (values.flatMap doubleBytes)

def packScalar : Scalar → Transfer Unit
  | .int value => packInt value
  | .double value => packDouble value

def unpackInt : Transfer Int32 := do return intOfBytes (← take 4)

def unpackDouble : Transfer Binary64 := do return doubleOfBytes (← take 8)

/-- Cut bytes into `count` doubles. -/
def doublesOfBytes : Nat → List UInt8 → List Binary64
  | 0, _ => []
  | count + 1, bytes => doubleOfBytes (bytes.take 8) :: doublesOfBytes count (bytes.drop 8)

/-- Unpack a run of doubles, all or none. -/
def unpackDoubles (count : Nat) : Transfer (List Binary64) := do
  return doublesOfBytes count (← take (count * 8))

def unpackScalar : ScalarKind → Transfer Scalar
  | .int => return .int (← unpackInt)
  | .double => return .double (← unpackDouble)

end Transfer

end StellarWind
