import StellarWind.Exchange.Group
import StellarWind.Proofs.Exchange.Share

/-!
# One worker in one round

What `prepare` and `settle` do to a worker, and how a round of a group is made of
them. A worker keeps its rank, its share and the size of its buffer; once it has
failed it also keeps its failure and its cells.
-/

namespace StellarWind

namespace Exchange

open Transfer

namespace Worker

/-- What a worker gets from packing its share in its own round. -/
def packing (w : Worker) : Except ExchangeError Nat × Buffer :=
  (packShare w.cells w.owned).on w.buffer.rewind

theorem packing_eq_ok_iff (w : Worker) (sent : Nat) (b : Buffer) :
    w.packing = (.ok sent, b) ↔ Sendable w.cells w.owned ∧
      (shareBytes w.cells w.owned).length ≤ w.buffer.capacity ∧ sent = w.owned.size ∧
        b = w.buffer.rewind.replace (shareBytes w.cells w.owned) := by
  have h := writes_packShare w.cells w.owned w.buffer.rewind b sent
  rwa [Buffer.length_ahead_rewind] at h

/-- An integer fits at the start of a buffer of four bytes or more. -/
theorem on_packInt_rewind (v : Int32) {b : Buffer} (h : 4 ≤ b.capacity) :
    (packInt v).on b.rewind = (.ok (), b.rewind.replace (intBytes v)) := by
  have hroom : (intBytes v).length ≤ b.rewind.ahead.length := by
    rw [Buffer.length_ahead_rewind, length_intBytes]
    exact h
  exact (writes_put (intBytes v) b.rewind _ ()).mpr ⟨trivial, hroom, rfl, rfl⟩

theorem capacity_packing (w : Worker) : w.packing.2.capacity = w.buffer.capacity := by
  rw [packing, (advances_packShare w.cells w.owned w.buffer.rewind).capacity,
    Buffer.capacity_rewind]

/-! ## Making ready

Making ready depends on whether the round is the worker's own, and then on whether its share can be
packed. Outside of its own round a worker only moves its cursor back.
-/

theorem prepare_other {w : Worker} {root : Nat} (h : root ≠ w.rank) :
    w.prepare root = { w with buffer := w.buffer.rewind } := by
  unfold prepare
  rw [if_neg h]

theorem prepare_own_ok {w : Worker} {root sent : Nat} {b : Buffer} (hr : w.rank = root)
    (h : w.packing = (.ok sent, b)) : w.prepare root = { w with buffer := b, sent := sent } := by
  unfold packing at h
  unfold prepare
  dsimp only
  rw [if_pos hr.symm, h]

theorem prepare_own_error {w : Worker} {root : Nat} {cause : ExchangeError} {b : Buffer}
    (hr : w.rank = root) (h : w.packing = (.error cause, b)) :
    w.prepare root = { w with
      buffer := ((packInt abortMark).on b.rewind).2
      events := w.events ++ [Event.packingFailed w.rank cause]
      failure := w.failure.or (some cause) } := by
  unfold packing at h
  unfold prepare
  dsimp only
  rw [if_pos hr.symm, h]

/-- In all rounds a worker that makes ready keeps what it is. -/
theorem prepare_kept (w : Worker) (root : Nat) :
    (w.prepare root).rank = w.rank ∧ (w.prepare root).owned = w.owned ∧
      (w.prepare root).cells = w.cells ∧ (w.prepare root).received = w.received ∧
        (w.prepare root).buffer.capacity = w.buffer.capacity := by
  by_cases h : root = w.rank
  · subst h
    have hcap := w.capacity_packing
    rcases hp : w.packing with ⟨cause | sent, b⟩ <;> rw [hp] at hcap
    · rw [prepare_own_error rfl hp]
      have hmark := (advances_put (intBytes abortMark) b.rewind).capacity
      exact ⟨rfl, rfl, rfl, rfl, (hmark.trans b.capacity_rewind).trans hcap⟩
    · rw [prepare_own_ok rfl hp]
      exact ⟨rfl, rfl, rfl, rfl, hcap⟩
  · rw [prepare_other h]
    exact ⟨rfl, rfl, rfl, rfl, w.buffer.capacity_rewind⟩

theorem prepare_failed {w : Worker} {cause : ExchangeError} (h : w.failure = some cause)
    (root : Nat) : (w.prepare root).failure = some cause := by
  by_cases hr : root = w.rank
  · subst hr
    rcases hp : w.packing with ⟨e | sent, b⟩
    · rw [prepare_own_error rfl hp]
      show w.failure.or _ = _
      rw [h]
      rfl
    · rw [prepare_own_ok rfl hp]
      exact h
  · rw [prepare_other hr]
    exact h

/-! ## Settling

What arrived is looked at in the round of another worker and without a failure from before. In all
other cases it only goes into the buffer.
-/

theorem settle_error (w : Worker) (root : Nat) (cause : ExchangeError) :
    w.settle root (.error cause) = { w with failure := w.failure.or (some cause) } := rfl

theorem settle_own {w : Worker} {root : Nat} (h : root = w.rank) (bytes : List UInt8) :
    w.settle root (.ok bytes) = { w with buffer := w.buffer.overwrite 0 bytes } := by
  unfold settle
  dsimp only
  rw [if_pos (by simp [h])]

theorem settle_failed {w : Worker} {cause : ExchangeError} (h : w.failure = some cause)
    (root : Nat) (bytes : List UInt8) :
    w.settle root (.ok bytes) = { w with buffer := w.buffer.overwrite 0 bytes } := by
  unfold settle
  dsimp only
  rw [if_pos (by simp [h])]

theorem settle_merge {w : Worker} {root : Nat} (hr : root ≠ w.rank) (hf : w.failure = none)
    (bytes : List UInt8) :
    w.settle root (.ok bytes) =
      match (mergeShare root).on w.cells (w.buffer.overwrite 0 bytes).rewind with
      | (.ok received, cells, buffer) => { w with buffer, cells, received := w.received + received }
      | (.error cause, cells, buffer) => Worker.fail { w with buffer, cells } cause := by
  unfold settle
  dsimp only
  exact if_neg (by simp [hr, hf])

theorem settle_kept (w : Worker) (root : Nat) (arrived : Except ExchangeError (List UInt8)) :
    (w.settle root arrived).rank = w.rank ∧ (w.settle root arrived).owned = w.owned ∧
      (w.settle root arrived).buffer.capacity = w.buffer.capacity := by
  rcases arrived with cause | bytes
  · exact ⟨rfl, rfl, rfl⟩
  · have hcap := w.buffer.capacity_overwrite bytes
    by_cases hr : root = w.rank
    · rw [settle_own hr]
      exact ⟨rfl, rfl, hcap⟩
    · rcases hf : w.failure with _ | cause
      · rw [settle_merge hr hf]
        have hadv := (advances_mergeShare root w.cells (w.buffer.overwrite 0 bytes).rewind).capacity
        rw [Buffer.capacity_rewind, hcap] at hadv
        rcases hm : (mergeShare root).on w.cells (w.buffer.overwrite 0 bytes).rewind with
          ⟨e | n, cells, b⟩ <;> rw [hm] at hadv <;> exact ⟨rfl, rfl, hadv⟩
      · rw [settle_failed hf]
        exact ⟨rfl, rfl, hcap⟩

/-- A worker that has failed changes neither its failure nor its cells. -/
theorem settle_frozen {w : Worker} {cause : ExchangeError} (h : w.failure = some cause)
    (root : Nat) (arrived : Except ExchangeError (List UInt8)) :
    (w.settle root arrived).failure = some cause ∧ (w.settle root arrived).cells = w.cells := by
  rcases arrived with e | bytes
  · rw [settle_error]
    refine ⟨?_, rfl⟩
    show w.failure.or _ = _
    rw [h]
    rfl
  · rw [settle_failed h]
    exact ⟨h, rfl⟩

end Worker

/-! ## A round of a group

A round is the same for all workers once the bytes are known that the sender has made ready. So
each worker has a turn of its own (`Worker.turn`), and a round of a group is a turn of each.
-/

/-- What reaches the worker of the given rank when worker `root` sends. -/
def arrival (root : Nat) (sent : List UInt8) (rank : Nat) (bytes : List UInt8) :
    Except ExchangeError (List UInt8) :=
  if rank = root then .ok bytes
  else if sent.length = bytes.length then .ok sent
  else .error (.sizeMismatch root bytes.length sent.length)

/-- One worker's part in the round of `root`, which sends `sent`. -/
def Worker.turn (w : Worker) (root : Nat) (sent : List UInt8) (rank : Nat) : Worker :=
  (w.prepare root).settle root (arrival root sent rank (w.prepare root).buffer.contents)

namespace Worker

theorem turn_kept (w : Worker) (root : Nat) (sent : List UInt8) (rank : Nat) :
    (w.turn root sent rank).rank = w.rank ∧ (w.turn root sent rank).owned = w.owned ∧
      (w.turn root sent rank).buffer.capacity = w.buffer.capacity := by
  obtain ⟨hrank, howned, -, -, hcap⟩ := w.prepare_kept root
  obtain ⟨hrank', howned', hcap'⟩ := (w.prepare root).settle_kept root
    (arrival root sent rank (w.prepare root).buffer.contents)
  exact ⟨hrank'.trans hrank, howned'.trans howned, hcap'.trans hcap⟩

theorem turn_frozen {w : Worker} {cause : ExchangeError} (h : w.failure = some cause)
    (root : Nat) (sent : List UInt8) (rank : Nat) :
    (w.turn root sent rank).failure = some cause ∧ (w.turn root sent rank).cells = w.cells := by
  obtain ⟨hfail, hcells⟩ := settle_frozen (prepare_failed h root) root
    (arrival root sent rank (w.prepare root).buffer.contents)
  exact ⟨hfail, hcells.trans (w.prepare_kept root).2.2.1⟩

/-! ### The round of the worker itself

It sends its share or the mark of an abort, and merges nothing.
-/

theorem turn_own {w : Worker} {root : Nat} (h : w.rank = root) (sent : List UInt8) :
    w.turn root sent root = w.prepare root := by
  have hrank := (w.prepare_kept root).1
  rw [turn, arrival, if_pos rfl, settle_own (by rw [hrank, h]), Buffer.overwrite_contents]

theorem contents_prepare_ok {w : Worker} {root sent : Nat} {b : Buffer} (hr : w.rank = root)
    (h : w.packing = (.ok sent, b)) :
    ∃ tail, (w.prepare root).buffer.contents = shareBytes w.cells w.owned ++ tail := by
  obtain ⟨-, -, -, rfl⟩ := (w.packing_eq_ok_iff sent b).mp h
  rw [prepare_own_ok hr h]
  exact ⟨_, w.buffer.contents_rewind_replace _⟩

/-- A worker that cannot pack sends the abort mark, whatever it had packed before. -/
theorem contents_prepare_error {w : Worker} {root : Nat} {cause : ExchangeError} {b : Buffer}
    (hr : w.rank = root) (h : w.packing = (.error cause, b)) (hcap : 4 ≤ w.buffer.capacity) :
    ∃ tail, (w.prepare root).buffer.contents = intBytes abortMark ++ tail := by
  have hb : b.capacity = w.buffer.capacity := by
    have := w.capacity_packing
    rwa [h] at this
  -- The mark goes to the start, over what the failed attempt has left there.
  have hput := on_packInt_rewind abortMark (hb ▸ hcap)
  rw [prepare_own_error hr h, hput]
  exact ⟨_, b.contents_rewind_replace _⟩

/-! ### The round of another worker

What it does depends on what arrives: a share, a mark, or the wrong number of bytes.
-/

theorem turn_other {w : Worker} {root rank : Nat} {sent : List UInt8} (hr : root ≠ w.rank)
    (hpos : rank ≠ root) (hlen : sent.length = w.buffer.capacity) (hf : w.failure = none) :
    w.turn root sent rank =
      match (mergeShare root).on w.cells ⟨[], sent⟩ with
      | (.ok received, cells, buffer) => { w with buffer, cells, received := w.received + received }
      | (.error cause, cells, buffer) => { w with buffer, cells, failure := some cause } := by
  have hlen' : sent.length = w.buffer.rewind.capacity := by rw [hlen, Buffer.capacity_rewind]
  -- What arrives fills the buffer, so that nothing of an earlier round is left in it.
  have hmerge := settle_merge (w := { w with buffer := w.buffer.rewind }) hr hf sent
  rw [Buffer.rewind_overwrite hlen'] at hmerge
  rw [turn, prepare_other hr, arrival, if_neg hpos, if_pos (by simpa using hlen), hmerge]
  rcases (mergeShare root).on w.cells ⟨[], sent⟩ with ⟨cause | n, cells, b⟩
  · show ({ w with buffer := b, cells := cells, failure := w.failure.or (some cause) } : Worker) = _
    rw [hf]
    rfl
  · rfl

theorem turn_merge {w : Worker} {root rank : Nat} {source : List Cell} {owned : CellRange}
    {tail : List UInt8} (hr : root ≠ w.rank) (hpos : rank ≠ root) (hf : w.failure = none)
    (hsend : Sendable source owned) (hcells : source.length = w.cells.length)
    (hlen : (shareBytes source owned ++ tail).length = w.buffer.capacity) :
    ∃ b, w.turn root (shareBytes source owned ++ tail) rank =
      { w with
        buffer := b
        cells := overlay owned source w.cells
        received := w.received + owned.size } := by
  have hread := reads_mergeShare root hsend hcells [] tail
  rw [turn_other hr hpos hlen hf, hread]
  exact ⟨_, rfl⟩

theorem turn_abort {w : Worker} {root rank : Nat} {tail : List UInt8} (hr : root ≠ w.rank)
    (hpos : rank ≠ root) (hf : w.failure = none)
    (hlen : (intBytes abortMark ++ tail).length = w.buffer.capacity) :
    (w.turn root (intBytes abortMark ++ tail) rank).failure = some (.roundAborted root) ∧
      (w.turn root (intBytes abortMark ++ tail) rank).cells = w.cells := by
  have habort := on_mergeShare_abort root w.cells tail
  rw [turn_other hr hpos hlen hf]
  rcases hm : (mergeShare root).on w.cells ⟨[], intBytes abortMark ++ tail⟩ with ⟨x, cells, b⟩
  rw [hm] at habort
  obtain ⟨rfl, rfl⟩ := habort
  exact ⟨rfl, rfl⟩

theorem turn_mismatch {w : Worker} {root rank : Nat} {sent : List UInt8} (hr : root ≠ w.rank)
    (hpos : rank ≠ root) (hlen : sent.length ≠ w.buffer.capacity) :
    (w.turn root sent rank).failure.isSome := by
  rw [turn, prepare_other hr, arrival, if_neg hpos, if_neg (by simpa using hlen), settle_error]
  show (w.failure.or _).isSome
  simp

end Worker

@[simp] theorem length_groupRound (ws : List Worker) (root : Nat) :
    (groupRound ws root).length = ws.length := by
  unfold groupRound deliver
  dsimp only
  split <;> simp

theorem getElem?_groupRound {ws : List Worker} {root : Nat} {source : Worker}
    (h : ws[root]? = some source) (i : Nat) :
    (groupRound ws root)[i]? =
      ws[i]?.map fun w => w.turn root (source.prepare root).buffer.contents i := by
  have hsent : ((ws.map (·.prepare root)).map (·.buffer.contents))[root]? =
      some (source.prepare root).buffer.contents := by
    rw [List.getElem?_map, List.getElem?_map, h]
    rfl
  unfold groupRound deliver
  dsimp only
  rw [hsent]
  simp only [List.getElem?_zipWith, List.getElem?_map, List.getElem?_zipIdx]
  cases ws[i]? with
  | none => rfl
  | some w => simp [Worker.turn, arrival]

/-- The first rounds of a group, those of the workers below `k`. -/
def roundsTo (k : Nat) (ws : List Worker) : List Worker := (List.range k).foldl groupRound ws

theorem roundsTo_succ (k : Nat) (ws : List Worker) :
    roundsTo (k + 1) ws = groupRound (roundsTo k ws) k := by
  rw [roundsTo, List.range_succ, List.foldl_append]
  rfl

@[simp] theorem length_roundsTo (k : Nat) (ws : List Worker) :
    (roundsTo k ws).length = ws.length := by
  induction k with
  | zero => rfl
  | succ k ih => rw [roundsTo_succ, length_groupRound, ih]

end Exchange

end StellarWind
