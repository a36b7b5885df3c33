import StellarWind.Exchange.Share
import StellarWind.Proofs.Wind.CellRecord

/-!
# Shares on the wire

`Sendable` says of a share, without a buffer, whether it can be packed; `shareBytes`
are the bytes that it is packed into, and `overlay` is what a grid becomes when
these bytes are merged into it.
-/

namespace StellarWind

namespace Exchange

open Transfer

/-! ## Packing a share

Every step of packing writes known bytes, and under a known condition (`Writes`). The conditions
and the bytes of a whole share are those of its steps put together.
-/

/-- The cells of a range with their indices. -/
def records (cells : List Cell) (owned : CellRange) : List (Nat × Cell) :=
  owned.cells.zip ((cells.drop owned.start).take owned.size)

/-- The bytes of a cell with its index. -/
def indexedBytes (p : Nat × Cell) : List UInt8 :=
  intBytes (Int32.ofNat p.1) ++ Cell.schema.bytes p.2

/-- The bytes of a share. -/
def shareBytes (cells : List Cell) (owned : CellRange) : List UInt8 :=
  intBytes (Int32.ofNat owned.size) ++ (records cells owned).flatMap indexedBytes

/-- The share lies inside the grid, and its numbers fit into integers on the wire. -/
structure Sendable (cells : List Cell) (owned : CellRange) : Prop where
  ordered : owned.start ≤ owned.stop
  inside : owned.stop ≤ cells.length
  counted : owned.size < Count.positive32
  indexed : ∀ p ∈ records cells owned, p.1 < Count.positive32 ∧ p.2.IsIndexed

theorem length_take_drop {cells : List Cell} {owned : CellRange}
    (h : owned.start ≤ owned.stop ∧ owned.stop ≤ cells.length) :
    ((cells.drop owned.start).take owned.size).length = owned.size := by
  rw [List.length_take, List.length_drop, CellRange.size]
  omega

theorem length_records {cells : List Cell} {owned : CellRange} (h : Sendable cells owned) :
    (records cells owned).length = owned.size := by
  rw [records, List.length_zip, length_take_drop ⟨h.ordered, h.inside⟩, CellRange.cells,
    List.length_range', Nat.min_self]

theorem length_flatMap_indexedBytes {ps : List (Nat × Cell)} (h : ∀ p ∈ ps, p.2.IsIndexed) :
    (ps.flatMap indexedBytes).length = ps.length * 284 := by
  induction ps with
  | nil => rfl
  | cons p ps ih =>
      rw [List.flatMap_cons, List.length_append, ih fun q hq => h q (List.mem_cons_of_mem p hq),
        indexedBytes, List.length_append, length_intBytes,
        Cell.length_bytes (h p List.mem_cons_self), List.length_cons]
      omega

theorem length_shareBytes {cells : List Cell} {owned : CellRange} (h : Sendable cells owned) :
    (shareBytes cells owned).length = 4 + owned.size * 284 := by
  rw [shareBytes, List.length_append, length_intBytes,
    length_flatMap_indexedBytes fun p hp => (h.indexed p hp).2, length_records h]

/-! ### The packers of a share

A count and then one record for each cell. What can go wrong, apart from a lack of room, is
gathered in `Sendable`.
-/

theorem writes_wireInt (field : String) (n : Nat) :
    (liftM (wireInt field n) : Transfer Int32).Writes (n < Count.positive32) []
      (Int32.ofNat n) := by
  refine writes_lift fun c => ?_
  unfold wireInt
  by_cases h : n < Count.positive32
  · simp [h, eq_comm]
  · simp [h]

theorem writes_packRecord (index : Nat) (cell : Cell) :
    (packRecord index cell).Writes (index < Count.positive32 ∧ cell.IsIndexed)
      (indexedBytes (index, cell)) () := by
  have h := (writes_wireInt "cell_index" index).bind (f := fun i => do
    packInt i
    Cell.schema.pack cell) ((writes_put _).bind (f := fun _ => _) (Cell.writes_pack cell))
  exact h.congr (and_congr_right fun _ => and_iff_right trivial)

/-- Pack cells with their indices. -/
def packRecords (ps : List (Nat × Cell)) : Transfer Unit := ps.forM fun (i, c) => packRecord i c

theorem writes_packRecords (ps : List (Nat × Cell)) :
    (packRecords ps).Writes (∀ p ∈ ps, p.1 < Count.positive32 ∧ p.2.IsIndexed)
      (ps.flatMap indexedBytes) () :=
  Writes.forM fun p _ => writes_packRecord p.1 p.2

theorem ownedCells_eq_ok_iff (cells : List Cell) (owned : CellRange) (own : List Cell) :
    ownedCells cells owned = .ok own ↔
      (owned.start ≤ owned.stop ∧ owned.stop ≤ cells.length) ∧
        own = (cells.drop owned.start).take owned.size := by
  unfold ownedCells
  by_cases h : owned.start ≤ owned.stop ∧ owned.stop ≤ cells.length
  · rw [if_pos h]
    simp only [h, and_self, true_and, Except.ok.injEq]
    exact eq_comm
  · rw [if_neg h]
    simp [h]

theorem packShare_eq (cells : List Cell) (owned : CellRange) :
    packShare cells owned = (do
      let own ← liftM (ownedCells cells owned)
      packInt (← liftM (wireInt "cell_count" own.length))
      packRecords (owned.cells.zip own)
      return own.length) := rfl

/-- A share is packed exactly when it can be sent and fits into the buffer. -/
theorem writes_packShare (cells : List Cell) (owned : CellRange) :
    (packShare cells owned).Writes (Sendable cells owned) (shareBytes cells owned) owned.size := by
  -- The steps from the last to the first, each in front of what follows it.
  let own := (cells.drop owned.start).take owned.size
  have hbody := (writes_packRecords (owned.cells.zip own)).bind (f := fun _ => pure own.length)
    (writes_pure own.length)
  have hcount := (writes_wireInt "cell_count" own.length).bind (f := fun n => do
    packInt n
    packRecords (owned.cells.zip own)
    return own.length) ((writes_put _).bind (f := fun _ => _) hbody)
  have hall := (writes_lift (ownedCells_eq_ok_iff cells owned)).bind
    (f := fun (own : List Cell) => do
      packInt (← liftM (wireInt "cell_count" own.length))
      packRecords (owned.cells.zip own)
      return own.length) hcount
  rw [packShare_eq]
  refine (hall.congr_output ?_).congr ?_
  · rintro ⟨hrange, -⟩
    simp [shareBytes, records, own, length_take_drop hrange]
  · -- The conditions of the steps are those of `Sendable`, in the order of the steps.
    constructor
    · rintro ⟨hrange, hlen, -, hrec, -⟩
      exact ⟨hrange.1, hrange.2, by rwa [length_take_drop hrange] at hlen, hrec⟩
    · intro h
      have hrange := And.intro h.ordered h.inside
      refine ⟨hrange, ?_, trivial, h.indexed, trivial⟩
      rw [length_take_drop hrange]
      exact h.counted

theorem advances_packShare (cells : List Cell) (owned : CellRange) :
    (packShare cells owned).Advances := by
  unfold packShare
  refine (advances_lift _).bind fun own => (advances_lift _).bind fun n => ?_
  refine (advances_put _).bind fun _ => (Advances.forM fun p => ?_).bind fun _ => advances_pure _
  exact (advances_lift _).bind fun i => (advances_put _).bind fun _ => Cell.schema.advances_pack p.2

/-! ## Merging a share

To read a share is to write its records one after another at their indices (`place`). The indices
of a range are all different, so that this is the same as replacing the whole range at once
(`overlay`).
-/

/-- A grid after the cells of a range have arrived from another grid. -/
def overlay (owned : CellRange) (source target : List Cell) : List Cell :=
  target.mapIdx fun j c => if owned.contains j then (source[j]?.map Cell.arrived).getD c else c

@[simp] theorem length_overlay (owned : CellRange) (source target : List Cell) :
    (overlay owned source target).length = target.length := by
  simp [overlay]

theorem getElem?_overlay {owned : CellRange} {source target : List Cell}
    (h : source.length = target.length) (j : Nat) :
    (overlay owned source target)[j]? =
      if owned.contains j then source[j]?.map Cell.arrived else target[j]? := by
  rw [overlay, List.getElem?_mapIdx]
  by_cases hj : j < target.length
  · rw [List.getElem?_eq_getElem hj, List.getElem?_eq_getElem (h ▸ hj)]
    simp only [Option.map_some, Option.getD_some]
    split <;> rfl
  · rw [List.getElem?_eq_none (by omega), List.getElem?_eq_none (by omega)]
    simp

/-- Write records into a grid at their indices. -/
def place (cells : List Cell) (ps : List (Nat × Cell)) : List Cell :=
  ps.foldl (fun cells p => cells.set p.1 p.2.arrived) cells

theorem getElem?_place_range' (xs : List Cell) (start : Nat) (cells : List Cell) (j : Nat)
    (h : start + xs.length ≤ cells.length) :
    (place cells ((List.range' start xs.length).zip xs))[j]? =
      if start ≤ j ∧ j < start + xs.length then xs[j - start]?.map Cell.arrived
      else cells[j]? := by
  induction xs generalizing start cells with
  | nil =>
      rw [if_neg (by simp only [List.length_nil]; omega)]
      rfl
  | cons x xs ih =>
      rw [List.length_cons] at h
      have hset : start + 1 + xs.length ≤ (cells.set start x.arrived).length := by
        rw [List.length_set]
        omega
      rw [List.length_cons, List.range'_succ, List.zip_cons_cons, place, List.foldl_cons]
      show (place (cells.set start x.arrived) _)[j]? = _
      rw [ih (start + 1) (cells.set start x.arrived) hset]
      by_cases hj : j = start
      · -- The records behind the first one leave its place alone.
        subst hj
        rw [if_neg (by omega), if_pos (by omega), List.getElem?_set_self (by omega)]
        simp
      · rw [List.getElem?_set_ne (by omega)]
        by_cases hin : start ≤ j ∧ j < start + (xs.length + 1)
        · rw [if_pos hin, if_pos (by omega), List.getElem?_cons, if_neg (by omega)]
          congr 2
        · rw [if_neg hin, if_neg (by omega)]

/-- The records of a share, written at their indices, replace the cells of its range. -/
theorem place_records {source target : List Cell} {owned : CellRange}
    (h : Sendable source owned) (hlen : source.length = target.length) :
    place target (records source owned) = overlay owned source target := by
  apply List.ext_getElem?
  intro j
  have hsize := length_take_drop ⟨h.ordered, h.inside⟩
  have hstart := h.ordered
  have hstop := h.inside
  have hplace := getElem?_place_range' ((source.drop owned.start).take owned.size) owned.start
    target j (by rw [hsize, CellRange.size]; omega)
  rw [hsize] at hplace
  show (place target ((List.range' owned.start owned.size).zip _))[j]? = _
  rw [hplace, getElem?_overlay hlen, CellRange.contains]
  by_cases hj : owned.start ≤ j ∧ j < owned.stop
  · rw [if_pos (by unfold CellRange.size; omega), if_pos (by simpa using hj),
      List.getElem?_take_of_lt (by unfold CellRange.size; omega), List.getElem?_drop,
      Nat.add_sub_cancel' hj.1]
  · rw [if_neg (by unfold CellRange.size; omega), if_neg (by simpa using hj)]

/-! ### Records that arrive

The bytes of a share are read by the kinds by which they were packed, so that every cell of the
share arrives at its place.
-/

theorem reads_mergeRecord {cells : List Cell} {p : Nat × Cell} (hp : p.1 < cells.length)
    (hwire : p.1 < Count.positive32) (hcell : p.2.IsIndexed) :
    mergeRecord.Reads cells (indexedBytes p) (cells.set p.1 p.2.arrived) () := by
  refine (Filling.reads_ofTransfer (gives_unpackInt (Int32.ofNat p.1)) cells).bind ?_
  intro behind rest
  rw [Filling.on_mk]
  dsimp only
  rw [if_neg (Field.not_ofNat_neg hwire), Field.toNatClampNeg_ofNat hwire,
    List.getElem?_eq_getElem hp]
  dsimp only
  rw [Cell.reads_unpack hcell cells[p.1] behind rest]

theorem reads_mergeRecords {cells : List Cell} {ps : List (Nat × Cell)}
    (h : ∀ p ∈ ps, p.1 < cells.length ∧ p.1 < Count.positive32 ∧ p.2.IsIndexed) :
    (mergeRecords ps.length).Reads cells (ps.flatMap indexedBytes) (place cells ps) () := by
  induction ps generalizing cells with
  | nil => exact Filling.reads_pure () cells
  | cons p ps ih =>
      obtain ⟨hp, hwire, hcell⟩ := h p List.mem_cons_self
      have hps : ∀ q ∈ ps, q.1 < (cells.set p.1 p.2.arrived).length ∧
          q.1 < Count.positive32 ∧ q.2.IsIndexed := by
        intro q hq
        rw [List.length_set]
        exact h q (List.mem_cons_of_mem p hq)
      rw [List.flatMap_cons]
      exact (reads_mergeRecord hp hwire hcell).bind (g := fun _ => mergeRecords ps.length) (ih hps)

theorem ofNat_ne_abortMark {n : Nat} (h : n < Count.positive32) : Int32.ofNat n ≠ abortMark := by
  intro he
  apply Field.not_ofNat_neg h
  rw [he]
  decide

/-- Merging the bytes of a share replaces the cells of its range. -/
theorem reads_mergeShare (root : Nat) {source target : List Cell} {owned : CellRange}
    (h : Sendable source owned) (hlen : source.length = target.length) :
    (mergeShare root).Reads target (shareBytes source owned) (overlay owned source target)
      owned.size := by
  have hcount := Field.toNatClampNeg_ofNat h.counted
  have hps : ∀ p ∈ records source owned,
      p.1 < target.length ∧ p.1 < Count.positive32 ∧ p.2.IsIndexed := by
    intro p hp
    refine ⟨?_, h.indexed p hp⟩
    have hin : p.1 ∈ owned.cells := (List.of_mem_zip hp).1
    have hstop := h.inside
    rw [CellRange.cells, List.mem_range'_1, CellRange.size] at hin
    omega
  have hrecords := reads_mergeRecords hps
  rw [length_records h, place_records h hlen] at hrecords
  have hrest := hrecords.bind (g := fun _ => pure owned.size) (Filling.reads_pure _ _)
  rw [List.append_nil] at hrest
  refine (Filling.reads_ofTransfer (gives_unpackInt (Int32.ofNat owned.size)) target).bind ?_
  -- The count of a share that was packed is neither the mark nor otherwise negative.
  show Filling.Reads (if Int32.ofNat owned.size = abortMark then _ else _) _ _ _ _
  rw [if_neg (ofNat_ne_abortMark h.counted)]
  show Filling.Reads (if Int32.ofNat owned.size < 0 then _ else _) _ _ _ _
  rw [if_neg (Field.not_ofNat_neg h.counted), hcount]
  exact hrest

/-- A share that could not be packed changes no cell. -/
theorem on_mergeShare_abort (root : Nat) (cells : List Cell) (rest : List UInt8) :
    ((mergeShare root).on cells ⟨[], intBytes abortMark ++ rest⟩).1 = .error (.roundAborted root) ∧
      ((mergeShare root).on cells ⟨[], intBytes abortMark ++ rest⟩).2.1 = cells := by
  have hread := Filling.reads_ofTransfer (gives_unpackInt abortMark) cells [] rest
  unfold mergeShare
  rw [Filling.on_bind, hread]
  exact ⟨rfl, rfl⟩

theorem advances_mergeRecord : mergeRecord.Advances := by
  refine (Filling.advances_ofTransfer advances_unpackInt).bind fun index => ?_
  intro cells b
  rw [Filling.on_mk]
  dsimp only
  split
  · exact .refl b
  · next old _ =>
      have h := Cell.schema.advances_unpack old b
      rcases hb : Cell.schema.unpack.on old b with ⟨e | u, new, b'⟩ <;> rw [hb] at h <;> exact h

theorem advances_mergeShare (root : Nat) : (mergeShare root).Advances := by
  have hrecords : ∀ n, (mergeRecords n).Advances := by
    intro n
    induction n with
    | zero => exact Filling.advances_pure ()
    | succ n ih => exact advances_mergeRecord.bind fun _ => ih
  refine (Filling.advances_ofTransfer advances_unpackInt).bind fun count => ?_
  show Filling.Advances (if count = abortMark then _ else _)
  split
  · exact Filling.advances_throw _
  · show Filling.Advances (if count < 0 then _ else _)
    split
    · exact Filling.advances_throw _
    · exact (hrecords _).bind fun _ => Filling.advances_pure _

end Exchange

end StellarWind
