import StellarWind.Proofs.Exchange.Opening
import StellarWind.Proofs.Exchange.Share

/-!
# Room for a share

The buffer of an exchange has room for exactly as many cells as the largest share: a share
that can be sent at all is packed if and only if it is not larger than that. A larger one
fills the buffer up to its last byte and then fails at the index of the next cell.
-/

namespace StellarWind

namespace Exchange

open Transfer

/-! ## The records of a share

The records are the cells of the range with their places, as far as there are such cells.
-/

/-- A range in numbers: its records are the cells at the places of the range. -/
theorem getElem?_records (cells : List Cell) (owned : CellRange) (k : Nat) :
    (records cells owned)[k]? =
      if k < owned.size then cells[owned.start + k]?.map fun c => (owned.start + k, c)
      else none := by
  rw [records, CellRange.cells]
  by_cases hk : k < owned.size
  · rw [if_pos hk]
    cases hc : cells[owned.start + k]? <;> simp [List.zip, List.getElem?_zipWith, hk, hc]
  · rw [if_neg hk, List.getElem?_eq_none_iff, List.length_zip, List.length_range']
    exact Nat.le_trans (Nat.min_le_left _ _) (Nat.le_of_not_lt hk)

theorem mem_records {cells : List Cell} {owned : CellRange} {p : Nat × Cell} :
    p ∈ records cells owned ↔
      owned.start ≤ p.1 ∧ p.1 < owned.stop ∧ cells[p.1]? = some p.2 := by
  simp only [List.mem_iff_getElem?, getElem?_records]
  constructor
  · rintro ⟨k, hk⟩
    split at hk
    · obtain ⟨c, hc, rfl⟩ := Option.map_eq_some_iff.mp hk
      unfold CellRange.size at *
      exact ⟨by simp, by dsimp only; omega, hc⟩
    · cases hk
  · rintro ⟨hstart, hstop, hcell⟩
    refine ⟨p.1 - owned.start, ?_⟩
    rw [if_pos (by unfold CellRange.size; omega), Nat.add_sub_cancel' hstart, hcell]
    rfl

/-- Whether a share can be sent, place by place. -/
theorem sendable_iff (cells : List Cell) (owned : CellRange) :
    Sendable cells owned ↔ owned.start ≤ owned.stop ∧ owned.stop ≤ cells.length ∧
      owned.stop - owned.start < Count.positive32 ∧
      ∀ i c, owned.start ≤ i → i < owned.stop → cells[i]? = some c →
        i < Count.positive32 ∧ c.IsIndexed := by
  constructor
  · intro h
    refine ⟨h.ordered, h.inside, h.counted, ?_⟩
    intro i c hstart hstop hc
    exact h.indexed (i, c) (mem_records.mpr ⟨hstart, hstop, hc⟩)
  · rintro ⟨hordered, hinside, hcounted, hindexed⟩
    refine ⟨hordered, hinside, hcounted, ?_⟩
    intro p hp
    obtain ⟨hstart, hstop, hc⟩ := mem_records.mp hp
    exact hindexed p.1 p.2 hstart hstop hc

/-! ## A full buffer

The records in front fit exactly, and so they leave a buffer with nothing ahead. The index of the
next record is the first integer without room, and its error names the end of the buffer.
-/

/-- In front of a full buffer, a cell fails at its index. -/
theorem on_packRecord_full {index : Nat} (h : index < Count.positive32) (cell : Cell) {b : Buffer}
    (hb : b.ahead = []) : (packRecord index cell).on b = (.error (b.overflow 4), b) := by
  have hput : (packInt (Int32.ofNat index)).on b = (.error (b.overflow 4), b) := by
    apply on_put_short
    simp [hb]
  rw [packRecord, (writes_wireInt "cell_index" index).on_bind_of h (by simp), Buffer.replace_nil,
    on_bind, hput]

/-- Records that fill a buffer are packed, and the next one fails. -/
theorem on_packRecords_full {ps : List (Nat × Cell)} {p : Nat × Cell}
    (hps : ∀ q ∈ ps, q.1 < Count.positive32 ∧ q.2.IsIndexed) (hp : p.1 < Count.positive32)
    {b : Buffer} (hb : b.ahead.length = ps.length * 284) (later : List (Nat × Cell)) :
    (packRecords (ps ++ p :: later)).on b =
      (.error (.bufferOverflow b.capacity b.capacity 4), b.replace (ps.flatMap indexedBytes)) := by
  have hlen : (ps.flatMap indexedBytes).length = b.ahead.length := by
    rw [hb, length_flatMap_indexedBytes fun q hq => (hps q hq).2]
  let full := b.replace (ps.flatMap indexedBytes)
  have hahead : full.ahead = [] := by
    simp [full, Buffer.replace, hlen]
  have hfull : full.overflow 4 = .bufferOverflow b.capacity b.capacity 4 := by
    have hcapacity : full.capacity = b.capacity := Buffer.capacity_replace (Nat.le_of_eq hlen)
    have hposition : full.position = full.capacity := by
      simp [Buffer.position, Buffer.capacity, hahead]
    rw [Buffer.overflow, hposition, hcapacity]
  -- What comes after the record that fails is not packed, whatever it is.
  have hsplit : packRecords (ps ++ p :: later) = (do
      packRecords ps
      packRecord p.1 p.2
      packRecords later) := by
    simp [packRecords]
  rw [hsplit, (writes_packRecords ps).on_bind_of hps (Nat.le_of_eq hlen), on_bind,
    on_packRecord_full hp p.2 hahead, hfull]

/-- Behind its number, a share inside the grid is its records. -/
theorem on_packShare_inside {cells : List Cell} {owned : CellRange}
    (hrange : owned.start ≤ owned.stop ∧ owned.stop ≤ cells.length)
    (hcount : owned.size < Count.positive32) {b : Buffer} (hb : 4 ≤ b.ahead.length) :
    (packShare cells owned).on b = (do
      packRecords (records cells owned)
      return owned.size).on (b.replace (intBytes (Int32.ofNat owned.size))) := by
  have hown := (ownedCells_eq_ok_iff cells owned _).mpr ⟨hrange, rfl⟩
  have hsize := length_take_drop hrange
  rw [packShare_eq, on_bind, on_liftM, hown]
  dsimp only
  rw [hsize, (writes_wireInt "cell_count" owned.size).on_bind_of hcount (by simp),
    Buffer.replace_nil]
  exact (writes_put _).on_bind_of trivial (by rwa [length_intBytes])

/-- The first records of a share that is larger than `limit`, and the one behind them. -/
theorem records_split {cells : List Cell} {owned : CellRange} {limit : Nat}
    (hinside : owned.stop ≤ cells.length) (hmore : limit < owned.size) :
    ∃ c, ((records cells owned).take limit).length = limit ∧
      records cells owned = (records cells owned).take limit ++
        (owned.start + limit, c) :: (records cells owned).drop (limit + 1) := by
  have hplace : owned.start + limit < cells.length := by
    unfold CellRange.size at hmore
    omega
  have hrecord : (records cells owned)[limit]? =
      some (owned.start + limit, cells[owned.start + limit]) := by
    simp [getElem?_records, hmore, hplace]
  obtain ⟨hlt, hget⟩ := List.getElem?_eq_some_iff.mp hrecord
  refine ⟨cells[owned.start + limit], List.length_take_of_le (Nat.le_of_lt hlt), ?_⟩
  rw [← hget, ← List.drop_eq_getElem_cons hlt, List.take_append_drop]

/-- A share that is larger than the buffer was made for fills it and fails. -/
theorem on_packShare_full {cells : List Cell} {owned : CellRange} {limit : Nat} {b : Buffer}
    (hb : b.capacity = 4 + 284 * limit) (hinside : owned.stop ≤ cells.length)
    (hmore : limit < owned.size) (hcount : owned.size < Count.positive32)
    (hnext : owned.start + limit < Count.positive32)
    (hcells : ∀ i c, owned.start ≤ i → i < owned.start + limit → cells[i]? = some c →
      c.IsIndexed) :
    (packShare cells owned).on b.rewind =
      (.error (.bufferOverflow b.capacity b.capacity 4), b.rewind.replace
        (intBytes (Int32.ofNat owned.size) ++
          ((records cells owned).take limit).flatMap indexedBytes)) := by
  have hahead : b.rewind.ahead.length = 4 + 284 * limit := b.length_ahead_rewind.trans hb
  have hfirst : ∀ q ∈ (records cells owned).take limit,
      q.1 < Count.positive32 ∧ q.2.IsIndexed := by
    intro q hq
    obtain ⟨k, hk⟩ := List.getElem?_of_mem hq
    rw [List.getElem?_take] at hk
    split at hk
    · rw [getElem?_records, if_pos (by omega)] at hk
      obtain ⟨c, hc, rfl⟩ := Option.map_eq_some_iff.mp hk
      exact ⟨by dsimp only; omega, hcells _ c (by omega) (by omega) hc⟩
    · cases hk
  obtain ⟨c, hlen, hsplit⟩ := records_split hinside hmore
  -- Behind the number there is room for the first `limit` records and nothing else.
  let counted := b.rewind.replace (intBytes (Int32.ofNat owned.size))
  have hcapacity : counted.capacity = b.capacity := by
    rw [Buffer.capacity_replace (by rw [length_intBytes]; omega), Buffer.capacity_rewind]
  have hroom : counted.ahead.length = ((records cells owned).take limit).length * 284 := by
    rw [Buffer.length_ahead_replace, length_intBytes, hahead, hlen]
    omega
  have hpack := on_packRecords_full (p := (owned.start + limit, c)) hfirst hnext hroom
    ((records cells owned).drop (limit + 1))
  rw [← hsplit, hcapacity] at hpack
  rw [on_packShare_inside (by unfold CellRange.size at hmore; omega) hcount (by omega), on_bind,
    hpack, Buffer.replace_append]

/-! ## Exactly sufficient

A record takes 284 bytes, so that a share fits into the buffer exactly if its size is at most the
limit that the buffer was made for.
-/

theorem packShare_eq_ok_iff {cells : List Cell} {owned : CellRange} {limit : Nat} {b : Buffer}
    (hb : b.capacity = 4 + 284 * limit) (sent : Nat) (b' : Buffer) :
    (packShare cells owned).on b.rewind = (.ok sent, b') ↔
      Sendable cells owned ∧ owned.size ≤ limit ∧ sent = owned.size ∧
        b' = b.rewind.replace (shareBytes cells owned) := by
  rw [writes_packShare cells owned b.rewind b' sent, Buffer.length_ahead_rewind, hb]
  refine and_congr_right fun hsend => and_congr_left fun _ => ?_
  rw [length_shareBytes hsend]
  omega

/-- The buffer of an exchange whose largest share has `limit` cells. -/
theorem capacity_opening {task : Task} {seat seat' : Seat} {handles : List Nat} {w : Worker}
    (h : opening task seat = (.ok (handles, .ok w), seat')) :
    w.buffer.capacity = 4 + 284 * task.limit := by
  have hready : ready task seat = .ok ⟨handles, w, seat'⟩ := by
    rw [ready, h]
  obtain ⟨-, hworker⟩ := (ready_eq_ok_iff task seat _).mp hready
  cases hworker
  rw [capacity_fresh, roundBytes_eq, Nat.mul_comm]

/-- The buffer for shares of up to `limit` cells has room for these and for nothing more. A
share is packed exactly if it lies inside the grid, has at most `limit` cells, and all of
its numbers fit into integers on the wire; a larger share fails where the buffer ends. In
no case is anything changed behind the cursor. -/
theorem packShare_exact_room (limit : Nat) (hlimit : 4 + 284 * limit < Count.range64) :
    (∀ seat : Seat, ∃ handles seat', registerAll Cell.schema.layouts seat = (.ok handles, seat') ∧
      Cell.schema.capacity seat' handles limit = .ok (4 + 284 * limit)) ∧
    (∀ (task : Task) (seat seat' : Seat) (handles : List Nat) (w : Worker), task.limit = limit →
      opening task seat = (.ok (handles, .ok w), seat') →
      w.buffer.capacity = 4 + 284 * limit) ∧
    ∀ (b : Buffer) (cells : List Cell) (owned : CellRange), b.capacity = 4 + 284 * limit →
      ((∃ sent b', (packShare cells owned).on b.rewind = (.ok sent, b')) ↔
        owned.start ≤ owned.stop ∧ owned.stop ≤ cells.length ∧
        owned.stop - owned.start ≤ limit ∧ owned.stop - owned.start < Count.positive32 ∧
        ∀ i c, owned.start ≤ i → i < owned.stop → cells[i]? = some c →
          i < Count.positive32 ∧ c.domain < Count.positive32 ∧
          c.domainIndex < Count.positive32 ∧ c.tallyIndex < Count.positive32) ∧
      (∀ sent b', (packShare cells owned).on b.rewind = (.ok sent, b') →
        sent = owned.stop - owned.start ∧
        b'.position = 4 + (owned.stop - owned.start) * 284) ∧
      (owned.start ≤ owned.stop → owned.stop ≤ cells.length →
        limit < owned.stop - owned.start → owned.stop - owned.start < Count.positive32 →
        owned.start + limit < Count.positive32 →
        (∀ i c, owned.start ≤ i → i < owned.start + limit → cells[i]? = some c →
          c.domain < Count.positive32 ∧ c.domainIndex < Count.positive32 ∧
          c.tallyIndex < Count.positive32) →
        ((packShare cells owned).on b.rewind).1 =
          .error (.bufferOverflow (4 + 284 * limit) (4 + 284 * limit) 4)) ∧
      ((packShare cells owned).on b.rewind).2.capacity = b.capacity ∧
      ∀ i, ((packShare cells owned).on b.rewind).2.position ≤ i →
        ((packShare cells owned).on b.rewind).2.contents[i]? = b.contents[i]? := by
  refine ⟨fun seat => ⟨_, _, registerAll_layouts seat, ?_⟩, ?_, ?_⟩
  · rw [capacity_schema, roundBytes_eq, Nat.mul_comm, faulting_checked hlimit]
  · rintro task seat seat' handles w rfl hopen
    exact capacity_opening hopen
  intro b cells owned hb
  -- When a share is packed, where the cursor is then, how a larger one fails, and what stays.
  refine ⟨?_, ?_, ?_, ?_, ?_⟩
  · simp only [packShare_eq_ok_iff hb, sendable_iff]
    constructor
    · rintro ⟨-, -, ⟨hordered, hinside, hcounted, hindexed⟩, hsmall, -⟩
      exact ⟨hordered, hinside, hsmall, hcounted, hindexed⟩
    · rintro ⟨hordered, hinside, hsmall, hcounted, hindexed⟩
      exact ⟨_, _, ⟨hordered, hinside, hcounted, hindexed⟩, hsmall, rfl, rfl⟩
  · intro sent b' hpack
    obtain ⟨hsend, -, rfl, rfl⟩ := (packShare_eq_ok_iff hb sent b').mp hpack
    refine ⟨rfl, ?_⟩
    rw [Buffer.position_replace, length_shareBytes hsend]
    exact Nat.zero_add _
  · intro _ hinside hmore hcounted hnext hcells
    rw [on_packShare_full hb hinside hmore hcounted hnext hcells, hb]
  · rw [(advances_packShare cells owned b.rewind).capacity, Buffer.capacity_rewind]
  · intro i hi
    obtain ⟨bytes, hroom, hreach⟩ := advances_packShare cells owned b.rewind
    rw [hreach] at hi ⊢
    rw [Buffer.position_replace] at hi
    exact Buffer.getElem?_contents_replace (.inr hi)

/-- With a buffer for one cell, the second of two cells is packed and both of them are not. -/
theorem packShare_exact_room_pair :
    4 + 284 * 1 < Count.range64 ∧
    (∃ sent b', (packShare [.blank 0 0 0, .blank 0 1 1] ⟨1, 2⟩).on
      (Buffer.rewind ⟨[], List.replicate 288 0⟩) = (.ok sent, b')) ∧
    ((packShare [.blank 0 0 0, .blank 0 1 1] ⟨0, 2⟩).on
      (Buffer.rewind ⟨[], List.replicate 288 0⟩)).1 = .error (.bufferOverflow 288 288 4) := by
  have hcells : ∀ i c, [Cell.blank 0 0 0, .blank 0 1 1][i]? = some c →
      i < Count.positive32 ∧ c.IsIndexed := by
    intro i c hc
    obtain rfl | rfl : i = 0 ∨ i = 1 := by
      have hi := (List.getElem?_eq_some_iff.mp hc).1
      simp only [List.length_cons, List.length_nil] at hi
      omega
    · cases hc
      decide
    · cases hc
      decide
  have hcapacity : Buffer.capacity ⟨[], List.replicate 288 0⟩ = 4 + 284 * 1 := by
    rw [Buffer.capacity, List.length_nil, List.length_replicate]
  have hroom (owned : CellRange) := (packShare_exact_room 1 (by decide)).2.2
    ⟨[], List.replicate 288 0⟩ [.blank 0 0 0, .blank 0 1 1] owned
  obtain ⟨hsecond, -⟩ := hroom ⟨1, 2⟩ hcapacity
  obtain ⟨-, -, hboth, -⟩ := hroom ⟨0, 2⟩ hcapacity
  refine ⟨by decide, hsecond.mpr ?_, hboth ?_ ?_ ?_ ?_ ?_ fun i c _ _ hc => (hcells i c hc).2⟩
  · exact ⟨by decide, by decide, by decide, by decide, fun i c _ _ => hcells i c⟩
  all_goals decide

end Exchange

end StellarWind
