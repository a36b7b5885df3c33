import StellarWind.Proofs.Exchange.Convergence

/-!
# What cells keep in an exchange

An exchange moves cells between grids but never from one place to another. So a property
of a cell and its place that holds in all grids of a group before an exchange holds
after it, however the exchange ends and whatever shares and limits the workers have.
-/

namespace StellarWind

namespace Exchange

/-- A property of cells and their places that does not depend on the standing, which may
change on the way. -/
def Travels (P : Nat → Cell → Prop) : Prop := ∀ j c, P j c → P j c.arrived

/-- A worker in whose grid every cell has a property together with its place. -/
structure Keeps (P : Nat → Cell → Prop) (n i : Nat) (w : Worker) : Prop where
  rank : w.rank = i
  room : 4 ≤ w.buffer.capacity
  length : w.cells.length = n
  cells : ∀ (j : Nat) (c : Cell), w.cells[j]? = some c → P j c

section

variable {P : Nat → Cell → Prop} {n : Nat}

theorem Worker.turn_mismatch_cells {w : Worker} {root rank : Nat} {sent : List UInt8}
    (hr : root ≠ w.rank) (hpos : rank ≠ root) (hlen : sent.length ≠ w.buffer.capacity) :
    (w.turn root sent rank).cells = w.cells := by
  rw [turn, prepare_other hr, arrival, if_neg hpos, if_neg (by simpa using hlen), settle_error]

/-! ## One round

Whatever arrives, a grid stays as it was or has the share of the sender laid over it, and every
cell of the share comes from the same place in the grid of the sender.
-/

/-- A worker keeps its cells in a round, or takes over those of the sender's share. -/
theorem Worker.cells_turn {k i : Nat} {source w : Worker} (hs : Keeps P n k source)
    (hw : Keeps P n i w) :
    (w.turn k (source.prepare k).buffer.contents i).cells = w.cells ∨
      (w.turn k (source.prepare k).buffer.contents i).cells =
        overlay source.owned source.cells w.cells := by
  by_cases hik : i = k
  · left
    rw [hik, Worker.turn_own (hw.rank.trans hik)]
    exact (w.prepare_kept k).2.2.1
  · have hr : k ≠ w.rank := by
      rw [hw.rank]
      exact Ne.symm hik
    cases hf : w.failure with
    | some cause => exact .inl (Worker.turn_frozen hf k _ i).2
    | none =>
        by_cases hlen : (source.prepare k).buffer.contents.length = w.buffer.capacity
        · -- What arrives is the share of the sender, or the mark of one that could not pack it.
          rcases hp : source.packing with ⟨cause | sent, b⟩
          · obtain ⟨tail, htail⟩ := Worker.contents_prepare_error hs.rank hp hs.room
            rw [htail] at hlen ⊢
            exact .inl (Worker.turn_abort hr hik hf hlen).2
          · obtain ⟨hsend, -⟩ := (source.packing_eq_ok_iff sent b).mp hp
            obtain ⟨tail, htail⟩ := Worker.contents_prepare_ok hs.rank hp
            rw [htail] at hlen ⊢
            obtain ⟨b', hturn⟩ := Worker.turn_merge hr hik hf hsend
              (hs.length.trans hw.length.symm) hlen
            right
            rw [hturn]
        · exact .inl (Worker.turn_mismatch_cells hr hik hlen)

theorem Keeps.turn (hP : Travels P) {k i : Nat} {source w : Worker} (hs : Keeps P n k source)
    (hw : Keeps P n i w) : Keeps P n i (w.turn k (source.prepare k).buffer.contents i) := by
  obtain ⟨hrank, -, hcap⟩ := w.turn_kept k (source.prepare k).buffer.contents i
  have hsame : source.cells.length = w.cells.length := hs.length.trans hw.length.symm
  have hcells := Worker.cells_turn hs hw
  refine ⟨hrank.trans hw.rank, hcap ▸ hw.room, ?_, ?_⟩
  · rcases hcells with hcells | hcells
    · rw [hcells, hw.length]
    · rw [hcells, length_overlay, hw.length]
  · intro j c hj
    rcases hcells with hcells | hcells
    · rw [hcells] at hj
      exact hw.cells j c hj
    · rw [hcells, getElem?_overlay hsame] at hj
      split at hj
      · -- The cell stood at the same place in the grid of the sender.
        obtain ⟨d, hd, rfl⟩ := Option.map_eq_some_iff.mp hj
        exact hP j d (hs.cells j d hd)
      · exact hw.cells j c hj

/-! ## All rounds

One round preserves the property for every worker, and by induction all rounds do.
-/

variable {tasks : List Task} {ws : List Worker}

theorem keeps_roundsTo (hP : Travels P) (h : Each tasks ws fun i _ => Keeps P n i) {k : Nat}
    (hk : k ≤ tasks.length) : Each tasks (roundsTo k ws) fun i _ => Keeps P n i := by
  induction k with
  | zero => exact h
  | succ k ih =>
      have hbefore := ih (by omega)
      obtain ⟨source, hsource, hs⟩ := hbefore.2 k _ (List.getElem?_eq_getElem hk)
      rw [roundsTo_succ]
      exact hbefore.round hsource fun _ _ _ _ _ hw => hs.turn hP hw

/-- What holds of the cells of all workers before an exchange holds of them after it. -/
theorem outcomes_keep {members : List (Task × Seat)} (hP : Travels P) (hseated : Seated members)
    (hroom : ∀ m ∈ members, roundBytes m.1.limit < Buffer.limit)
    (hlen : ∀ m ∈ members, m.1.cells.length = n)
    (hcells : ∀ m ∈ members, ∀ (j : Nat) (c : Cell), m.1.cells[j]? = some c → P j c) :
    ∃ outcomes, synchronizeGroup members = .ok outcomes ∧ outcomes.length = members.length ∧
      ∀ (i : Nat) (m : Task × Seat), members[i]? = some m → ∃ o, outcomes[i]? = some o ∧
        o.endpoint = withoutCone m.2 ∧ o.cells.length = n ∧
        ∀ (j : Nat) (c : Cell), o.cells[j]? = some c → P j c := by
  have hfresh : Each (members.map Prod.fst) (freshWorkers members) fun i _ => Keeps P n i := by
    refine each_fresh fun i m hm => ?_
    have hmem := List.mem_of_getElem? hm
    refine ⟨hseated.rank hm, ?_, hlen m hmem, hcells m hmem⟩
    rw [capacity_fresh, roundBytes_eq]
    omega
  -- The invariant says nothing about failures, so that it holds on both ways through a round.
  have hkept := keeps_roundsTo hP hfresh (k := members.length) (by simp)
  obtain ⟨outcomes, hrun, hlength, hall⟩ := exists_outcomes hroom hkept
  refine ⟨outcomes, hrun, hlength, fun i m hm => ?_⟩
  obtain ⟨w, hw, ho⟩ := hall i m hm
  exact ⟨_, ho, rfl, hw.length, hw.cells⟩

end

end Exchange

end StellarWind
