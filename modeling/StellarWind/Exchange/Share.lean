import StellarWind.Number.Count
import StellarWind.Plan.Basic
import StellarWind.Wind.Cell

/-!
# A worker's share on the wire

In its round a worker sends the number of its cells and then each of them with
its index in the grid. The receivers write every record at its index; a record
that cannot be read leaves its cell as it was. A worker that cannot pack its
share sends a mark instead of a number.
-/

namespace StellarWind

namespace Exchange

/-- The number that stands for a share that could not be packed. -/
def abortMark : Int32 := -1

def wireInt (field : String) (n : Nat) : Except ExchangeError Int32 :=
  if n < Count.positive32 then .ok (Int32.ofNat n)
  else .error (.invalidField field (.countTooLarge n))

/-- The largest index that an error can show. -/
def largestIndex : Nat := Count.positive64 - 1

/-- The cells of a range, if it lies inside the grid and is not reversed. -/
def ownedCells (cells : List Cell) (owned : CellRange) : Except ExchangeError (List Cell) :=
  if owned.start ≤ owned.stop ∧ owned.stop ≤ cells.length then
    .ok ((cells.drop owned.start).take owned.size)
  else .error (.cellIndexOutOfRange (min owned.stop largestIndex) cells.length)

def packRecord (index : Nat) (cell : Cell) : Transfer Unit := do
  Transfer.packInt (← liftM (wireInt "cell_index" index))
  Cell.schema.pack cell

/-- Pack a share, and say how many cells it has. -/
def packShare (cells : List Cell) (owned : CellRange) : Transfer Nat := do
  let own ← liftM (ownedCells cells owned)
  Transfer.packInt (← liftM (wireInt "cell_count" own.length))
  (owned.cells.zip own).forM fun (index, cell) => packRecord index cell
  return own.length

def mergeRecord : Filling (List Cell) Unit := do
  let index ← Filling.ofTransfer Transfer.unpackInt
  ExceptT.mk fun (cells, b) =>
    let target := if index < 0 then none else cells[index.toNatClampNeg]?
    match target with
    | none => (.error (.cellIndexOutOfRange index.toInt cells.length), (cells, b))
    | some old =>
      match Cell.schema.unpack.on old b with
      | (.ok (), new, b') => (.ok (), (cells.set index.toNatClampNeg new, b'))
      | (.error e, _, b') => (.error e, (cells, b'))

def mergeRecords : Nat → Filling (List Cell) Unit
  | 0 => pure ()
  | n + 1 => do
    mergeRecord
    mergeRecords n

/-- Read the share of worker `root`, and say how many cells it had. -/
def mergeShare (root : Nat) : Filling (List Cell) Nat := do
  let count ← Filling.ofTransfer Transfer.unpackInt
  if count = abortMark then throw (.roundAborted root)
  if count < 0 then throw (.invalidField "cell_count" (.negativeCount count.toInt))
  mergeRecords count.toNatClampNeg
  return count.toNatClampNeg

end Exchange

end StellarWind
