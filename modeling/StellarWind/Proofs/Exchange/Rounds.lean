import StellarWind.Proofs.Exchange.Grids
import StellarWind.Proofs.Exchange.Opening
import StellarWind.Proofs.Exchange.Turn

/-!
# The rounds of a group

Invariants say where a group stands. With one limit, as long as every worker could
pack its share all workers are `Merged`: they have no failure, and their grids are
those of `gridAfter`. When worker `m` is the first that cannot, all workers are
`Aborted` from then on: each has failed because of `m`, with the grid that it had
before the round of `m`. With different limits a worker is `Opposed`: it fails at the
latest in the round of the first worker with another limit.
-/

namespace StellarWind

namespace Exchange

open Transfer

/-- Every worker of a group stands in a relation to its rank and its task. -/
def Each (tasks : List Task) (ws : List Worker) (P : Nat → Task → Worker → Prop) : Prop :=
  ws.length = tasks.length ∧ ∀ i t, tasks[i]? = some t → ∃ w, ws[i]? = some w ∧ P i t w

/-- A worker after the rounds of the workers below `k`, all of which could pack. -/
structure Merged (tasks : List Task) (k i : Nat) (t : Task) (w : Worker) : Prop where
  rank : w.rank = i
  owned : w.owned = t.owned
  cells : w.cells = gridAfter tasks k i
  sent : w.sent = if i < k then t.owned.size else 0
  received : w.received = (((tasks.take k).eraseIdx i).map (·.owned.size)).sum
  failure : w.failure = none
  capacity : w.buffer.capacity = roundBytes t.limit

/-- A worker after worker `m` could not pack. -/
structure Aborted (tasks : List Task) (m : Nat) (cause : ExchangeError) (i : Nat) (w : Worker) :
    Prop where
  cells : w.cells = gridAfter tasks m i
  failure : w.failure = some (if i = m then cause else .roundAborted m)

/-- A worker after the rounds of the workers below `k`, any of which may have another
limit. -/
structure Opposed (tasks : List Task) (k i : Nat) (t : Task) (w : Worker) : Prop where
  rank : w.rank = i
  capacity : w.buffer.capacity = roundBytes t.limit
  failure : ∀ j < k, ∀ s, tasks[j]? = some s → s.limit ≠ t.limit → w.failure.isSome

/-- What worker `k` gets from packing its share in its own round. -/
def packedIn (ws : List Worker) (k : Nat) : Option (Except ExchangeError Nat) :=
  (roundsTo k ws)[k]?.map (·.packing.1)

/-- Worker `m` is the first that cannot pack its share in its own round. -/
structure FailsFirst (ws : List Worker) (m : Nat) (cause : ExchangeError) : Prop where
  earlier : ∀ k < m, ∃ sent, packedIn ws k = some (.ok sent)
  failing : packedIn ws m = some (.error cause)

/-- Worker `k` can pack its share after the rounds of the workers below it. -/
def Packs (tasks : List Task) (k : Nat) : Prop :=
  ∃ t, tasks[k]? = some t ∧ Sendable (gridAfter tasks k k) t.owned ∧ t.owned.size ≤ t.limit

section

variable {tasks : List Task} {ws : List Worker}

/-- What every worker makes of a round. -/
theorem Each.round {P Q : Nat → Task → Worker → Prop} (h : Each tasks ws P) {k : Nat}
    {source : Worker} (hsource : ws[k]? = some source)
    (hturn : ∀ i t w, tasks[i]? = some t → ws[i]? = some w → P i t w →
      Q i t (w.turn k (source.prepare k).buffer.contents i)) :
    Each tasks (groupRound ws k) Q := by
  refine ⟨by rw [length_groupRound, h.1], ?_⟩
  intro i t hi
  obtain ⟨w, hw, hp⟩ := h.2 i t hi
  refine ⟨_, ?_, hturn i t w hi hw hp⟩
  rw [getElem?_groupRound hsource, hw]
  rfl

/-! ## Counting

What a worker has received is counted over the tasks of the rounds so far without its own. A round
adds its task to the list, except for the worker that sends.
-/

theorem received_own {k : Nat} {s : Task} (hk : tasks[k]? = some s) :
    (tasks.take (k + 1)).eraseIdx k = (tasks.take k).eraseIdx k := by
  have hlt : k < tasks.length := (List.getElem?_eq_some_iff.mp hk).1
  have hlen : (tasks.take k).length = k := List.length_take_of_le (Nat.le_of_lt hlt)
  rw [List.take_add_one, hk, List.eraseIdx_append_of_length_le (by omega), hlen, Nat.sub_self,
    List.eraseIdx_of_length_le (l := tasks.take k) (by omega)]
  simp

theorem received_other {k i : Nat} {s : Task} (hk : tasks[k]? = some s) (hik : i ≠ k) :
    (tasks.take (k + 1)).eraseIdx i = (tasks.take k).eraseIdx i ++ [s] := by
  have hlt : k < tasks.length := (List.getElem?_eq_some_iff.mp hk).1
  have hlen : (tasks.take k).length = k := List.length_take_of_le (Nat.le_of_lt hlt)
  rw [List.take_add_one, hk]
  by_cases hi : i < k
  · rw [List.eraseIdx_append_of_lt_length (by omega)]
    rfl
  · rw [List.eraseIdx_of_length_le (by simp; omega), List.eraseIdx_of_length_le (by omega)]
    rfl

/-! ## Packing in a merged group

A worker packs from the cells that it has by then, and whether it can depends on the tasks alone.
-/

theorem roundBytes_le {size limit : Nat} : 4 + size * 284 ≤ roundBytes limit ↔ size ≤ limit := by
  rw [roundBytes_eq]
  omega

theorem Merged.packing_eq_ok_iff {k : Nat} {t : Task} {w : Worker} (h : Merged tasks k k t w)
    (hk : tasks[k]? = some t) (sent : Nat) (b : Buffer) :
    w.packing = (.ok sent, b) ↔ Packs tasks k ∧ sent = t.owned.size ∧
      b = w.buffer.rewind.replace (shareBytes w.cells w.owned) := by
  rw [Worker.packing_eq_ok_iff, h.owned, h.cells, h.capacity]
  constructor
  · rintro ⟨hsend, hroom, hsent, hb⟩
    rw [length_shareBytes hsend, roundBytes_le] at hroom
    exact ⟨⟨t, hk, hsend, hroom⟩, hsent, hb⟩
  · rintro ⟨⟨t', hk', hsend, hroom⟩, hsent, hb⟩
    obtain rfl : t' = t := Option.some.inj (hk'.symm.trans hk)
    refine ⟨hsend, ?_, hsent, hb⟩
    rw [length_shareBytes hsend, roundBytes_le]
    exact hroom

/-! ## One round

A turn keeps a worker `Merged` if the sender can pack, and makes it `Aborted` if not. The sender
itself has read nothing and is a case of its own in both.
-/

theorem Merged.turn_own {k : Nat} {s : Task} {w : Worker} (h : Merged tasks k k s w)
    (hk : tasks[k]? = some s) (hpack : Packs tasks k) (sent : List UInt8) :
    Merged tasks (k + 1) k s (w.turn k sent k) := by
  have hpacking := (h.packing_eq_ok_iff hk _ _).mpr ⟨hpack, rfl, rfl⟩
  obtain ⟨-, -, hcap⟩ := w.turn_kept k sent k
  rw [Worker.turn_own h.rank, Worker.prepare_own_ok h.rank hpacking] at hcap ⊢
  exact {
    rank := h.rank
    owned := h.owned
    cells := by rw [gridAfter_own]; exact h.cells
    sent := by rw [if_pos (Nat.lt_succ_self k)]
    received := by rw [received_own hk]; exact h.received
    failure := h.failure
    capacity := hcap.trans h.capacity }

theorem Merged.turn_other {k i n : Nat} {s t : Task} {source w : Worker}
    (h : Merged tasks k i t w) (hi : tasks[i]? = some t) (hs : Merged tasks k k s source)
    (hk : tasks[k]? = some s) (hik : i ≠ k) (hpack : Packs tasks k)
    (hlen : ∀ t ∈ tasks, t.cells.length = n) (hlimit : s.limit = t.limit) :
    Merged tasks (k + 1) i t (w.turn k (source.prepare k).buffer.contents i) := by
  have hpacking := (hs.packing_eq_ok_iff hk _ _).mpr ⟨hpack, rfl, rfl⟩
  obtain ⟨hsend, -⟩ := (source.packing_eq_ok_iff _ _).mp hpacking
  obtain ⟨tail, htail⟩ := Worker.contents_prepare_ok hs.rank hpacking
  have hcells : source.cells.length = w.cells.length := by
    rw [hs.cells, h.cells, length_gridAfter hlen k hk, length_gridAfter hlen k hi]
  -- Both have the same limit, so that the bytes have the length that the worker expects.
  have hsize : (shareBytes source.cells source.owned ++ tail).length = w.buffer.capacity := by
    rw [← htail, Buffer.length_contents, (source.prepare_kept k).2.2.2.2, hs.capacity, h.capacity,
      hlimit]
  have hr : k ≠ w.rank := by
    rw [h.rank]
    exact Ne.symm hik
  obtain ⟨-, -, hcap⟩ := w.turn_kept k (source.prepare k).buffer.contents i
  obtain ⟨b, hturn⟩ := Worker.turn_merge hr hik h.failure hsend hcells hsize
  rw [htail, hturn] at hcap ⊢
  exact {
    rank := h.rank
    owned := h.owned
    cells := by rw [gridAfter_other hk hik, ← hs.cells, ← h.cells, ← hs.owned]
    sent := by
      show w.sent = _
      rw [h.sent]
      by_cases hlt : i < k
      · rw [if_pos hlt, if_pos (by omega)]
      · rw [if_neg hlt, if_neg (by omega)]
    received := by
      show w.received + source.owned.size = _
      rw [received_other hk hik, List.map_append, List.sum_append, h.received, hs.owned]
      rfl
    failure := h.failure
    capacity := hcap.trans h.capacity }

variable {n limit : Nat}

/-- A round in which the sending worker can pack. -/
theorem merged_round (hlen : ∀ t ∈ tasks, t.cells.length = n)
    (hlimit : ∀ t ∈ tasks, t.limit = limit) {k : Nat} (h : Each tasks ws (Merged tasks k))
    (hpack : Packs tasks k) : Each tasks (groupRound ws k) (Merged tasks (k + 1)) := by
  obtain ⟨s, hk, -⟩ := id hpack
  obtain ⟨source, hsource, hs⟩ := h.2 k s hk
  refine h.round hsource fun i t w hi hw hm => ?_
  by_cases hik : i = k
  · subst hik
    obtain rfl : s = t := Option.some.inj (hk.symm.trans hi)
    exact hm.turn_own hk hpack _
  · refine hm.turn_other hi hs hk hik hpack hlen ?_
    rw [hlimit s (List.mem_of_getElem? hk), hlimit t (List.mem_of_getElem? hi)]

/-! ### A round that is aborted

The sender sends a mark in place of its share. It keeps its own error, and all others note whose
round it was.
-/

/-- A round in which the sending worker cannot pack. -/
theorem aborted_round (hlimit : ∀ t ∈ tasks, t.limit = limit) {k : Nat}
    (h : Each tasks ws (Merged tasks k)) {s : Task} (hk : tasks[k]? = some s) {source : Worker}
    (hsource : ws[k]? = some source) {cause : ExchangeError} {b : Buffer}
    (hpacking : source.packing = (.error cause, b)) :
    Each tasks (groupRound ws k) (fun i _ => Aborted tasks k cause i) := by
  have hs : Merged tasks k k s source := by
    obtain ⟨source', hsource', hs⟩ := h.2 k s hk
    obtain rfl : source' = source := Option.some.inj (hsource'.symm.trans hsource)
    exact hs
  refine h.round hsource fun i t w hi hw hm => ?_
  -- Worker `k` keeps its own error; the others find the mark in front of the bytes.
  by_cases hik : i = k
  · subst hik
    obtain rfl : source = w := Option.some.inj (hsource.symm.trans hw)
    rw [Worker.turn_own hm.rank, Worker.prepare_own_error hm.rank hpacking]
    refine ⟨hm.cells, ?_⟩
    show source.failure.or (some cause) = _
    rw [hm.failure, if_pos rfl]
    rfl
  · have hroom : 4 ≤ source.buffer.capacity := by
      rw [hs.capacity, roundBytes_eq]
      omega
    obtain ⟨tail, htail⟩ := Worker.contents_prepare_error hs.rank hpacking hroom
    have hsize : (intBytes abortMark ++ tail).length = w.buffer.capacity := by
      rw [← htail, Buffer.length_contents, (source.prepare_kept k).2.2.2.2, hs.capacity,
        hm.capacity, hlimit s (List.mem_of_getElem? hk), hlimit t (List.mem_of_getElem? hi)]
    have hr : k ≠ w.rank := by
      rw [hm.rank]
      exact Ne.symm hik
    obtain ⟨hfail, hcells⟩ := Worker.turn_abort hr hik hm.failure hsize
    rw [htail]
    refine ⟨hcells.trans hm.cells, ?_⟩
    rw [hfail, if_neg hik]

/-- A group that has aborted stays as it is. -/
theorem aborted_next {m k : Nat} {cause : ExchangeError} (hk : k < tasks.length)
    (h : Each tasks ws (fun i _ => Aborted tasks m cause i)) :
    Each tasks (groupRound ws k) (fun i _ => Aborted tasks m cause i) := by
  obtain ⟨source, hsource, -⟩ := h.2 k _ (List.getElem?_eq_getElem hk)
  refine h.round hsource fun i t w hi hw hm => ?_
  obtain ⟨hfail, hcells⟩ := Worker.turn_frozen hm.failure k (source.prepare k).buffer.contents i
  exact ⟨hcells.trans hm.cells, hfail⟩

/-! ## All rounds

`FailsFirst` speaks of the rounds as they are run, and `Packs` of the grids without buffers. In a
merged group both say the same about the next worker, and so, by induction, about all before the
first that fails.
-/

theorem merged_roundsTo (hlen : ∀ t ∈ tasks, t.cells.length = n)
    (hlimit : ∀ t ∈ tasks, t.limit = limit) (h : Each tasks ws (Merged tasks 0)) (k : Nat)
    (hpack : ∀ j < k, Packs tasks j) : Each tasks (roundsTo k ws) (Merged tasks k) := by
  induction k with
  | zero => exact h
  | succ k ih =>
      rw [roundsTo_succ]
      have hk := ih fun j hj => hpack j (Nat.lt_succ_of_lt hj)
      exact merged_round hlen hlimit hk (hpack k (Nat.lt_succ_self k))

theorem packs_of_packedIn (hlen : ∀ t ∈ tasks, t.cells.length = n)
    (hlimit : ∀ t ∈ tasks, t.limit = limit) (h : Each tasks ws (Merged tasks 0)) {k : Nat}
    (hpacked : ∀ j < k, ∃ sent, packedIn ws j = some (.ok sent)) : ∀ j < k, Packs tasks j := by
  induction k with
  | zero =>
      intro j hj
      omega
  | succ k ih =>
      have hbelow := ih fun j hj => hpacked j (Nat.lt_succ_of_lt hj)
      intro j hj
      by_cases hjk : j < k
      · exact hbelow j hjk
      · obtain rfl : j = k := by omega
        -- The workers below are through, so worker `j` packs in a merged group.
        have hmerged := merged_roundsTo hlen hlimit h j hbelow
        obtain ⟨sent, hsent⟩ := hpacked j hj
        obtain ⟨w, hw, hpacking⟩ := Option.map_eq_some_iff.mp hsent
        have hlt : j < tasks.length := by
          rw [← hmerged.1]
          exact (List.getElem?_eq_some_iff.mp hw).1
        have ht : tasks[j]? = some tasks[j] := List.getElem?_eq_getElem hlt
        obtain ⟨w', hw', hm⟩ := hmerged.2 j _ ht
        obtain rfl : w' = w := Option.some.inj (hw'.symm.trans hw)
        exact ((hm.packing_eq_ok_iff ht sent w'.packing.2).mp (Prod.ext hpacking rfl)).1

theorem aborted_roundsTo {m k : Nat} {cause : ExchangeError}
    (h : Each tasks (roundsTo (m + 1) ws) (fun i _ => Aborted tasks m cause i)) (hmk : m < k)
    (hk : k ≤ tasks.length) : Each tasks (roundsTo k ws) (fun i _ => Aborted tasks m cause i) := by
  induction k with
  | zero => omega
  | succ k ih =>
      by_cases hm : m = k
      · subst hm
        exact h
      · rw [roundsTo_succ]
        exact aborted_next (by omega) (ih (by omega) (by omega))

/-- The first worker that cannot pack aborts the whole group. -/
theorem FailsFirst.aborted {m : Nat} {cause : ExchangeError} (hfails : FailsFirst ws m cause)
    (hlen : ∀ t ∈ tasks, t.cells.length = n) (hlimit : ∀ t ∈ tasks, t.limit = limit)
    (h : Each tasks ws (Merged tasks 0)) :
    Each tasks (roundsTo tasks.length ws) (fun i _ => Aborted tasks m cause i) := by
  have hpack := packs_of_packedIn hlen hlimit h hfails.earlier
  have hmerged := merged_roundsTo hlen hlimit h m hpack
  obtain ⟨w, hw, hpacking⟩ := Option.map_eq_some_iff.mp hfails.failing
  have hm : m < tasks.length := by
    rw [← hmerged.1]
    exact (List.getElem?_eq_some_iff.mp hw).1
  refine aborted_roundsTo ?_ hm (Nat.le_refl _)
  rw [roundsTo_succ]
  exact aborted_round hlimit hmerged (List.getElem?_eq_getElem hm) hw (Prod.ext hpacking rfl)

/-- Either all workers below `k` can pack, or there is a first one that cannot. -/
theorem packedIn_or_failsFirst (ws : List Worker) {k : Nat} (hk : k ≤ ws.length) :
    (∀ j < k, ∃ sent, packedIn ws j = some (.ok sent)) ∨ ∃ m cause, FailsFirst ws m cause := by
  induction k with
  | zero =>
      left
      intro j hj
      omega
  | succ k ih =>
      -- Worker `k` matters only if all before it could pack, and then it is the first to fail.
      rcases ih (by omega) with hbelow | hfails
      · have hlt : k < (roundsTo k ws).length := by
          rw [length_roundsTo]
          omega
        have hpacked : packedIn ws k = some (roundsTo k ws)[k].packing.1 := by
          rw [packedIn, List.getElem?_eq_getElem hlt]
          rfl
        cases hk : (roundsTo k ws)[k].packing.1 with
        | error cause =>
            right
            exact ⟨k, cause, hbelow, by rw [hpacked, hk]⟩
        | ok sent =>
            left
            intro j hj
            by_cases hjk : j < k
            · exact hbelow j hjk
            · obtain rfl : j = k := by omega
              exact ⟨sent, by rw [hpacked, hk]⟩
      · exact .inr hfails

/-! ## Different limits

Workers with different limits have buffers of different sizes, and a broadcast between them is
refused for whoever does not send. The invariant needs no more than the sizes and the failures.
-/

theorem opposed_round {k : Nat} (hk : k < tasks.length) (h : Each tasks ws (Opposed tasks k)) :
    Each tasks (groupRound ws k) (Opposed tasks (k + 1)) := by
  obtain ⟨source, hsource, hs⟩ := h.2 k _ (List.getElem?_eq_getElem hk)
  refine h.round hsource fun i t w hi hw hm => ?_
  obtain ⟨hrank, -, hcap⟩ := w.turn_kept k (source.prepare k).buffer.contents i
  refine ⟨hrank.trans hm.rank, hcap.trans hm.capacity, ?_⟩
  intro j hj s hjs hne
  -- A failure of an earlier round stays; in round `k` the sizes of the buffers differ.
  by_cases hjk : j < k
  · obtain ⟨cause, hcause⟩ := Option.isSome_iff_exists.mp (hm.failure j hjk s hjs hne)
    rw [(Worker.turn_frozen hcause k (source.prepare k).buffer.contents i).1]
    rfl
  · obtain rfl : j = k := by omega
    obtain rfl : tasks[j] = s := Option.some.inj ((List.getElem?_eq_getElem hk).symm.trans hjs)
    have hij : i ≠ j := by
      rintro rfl
      obtain rfl : tasks[i] = t := Option.some.inj (hjs.symm.trans hi)
      exact hne rfl
    apply Worker.turn_mismatch _ hij
    · rw [Buffer.length_contents, (source.prepare_kept j).2.2.2.2, hs.capacity, hm.capacity,
        roundBytes_eq, roundBytes_eq]
      omega
    · rw [hm.rank]
      exact Ne.symm hij

theorem opposed_roundsTo (h : Each tasks ws (Opposed tasks 0)) {k : Nat} (hk : k ≤ tasks.length) :
    Each tasks (roundsTo k ws) (Opposed tasks k) := by
  induction k with
  | zero => exact h
  | succ k ih =>
      rw [roundsTo_succ]
      exact opposed_round (by omega) (ih (by omega))

end

end Exchange

end StellarWind
