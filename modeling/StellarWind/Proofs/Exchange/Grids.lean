import StellarWind.Exchange.Worker
import StellarWind.Proofs.Exchange.Share

/-!
# The grids of a group

The rounds of a group without their buffers: in the round of worker `k` its current
cells, which earlier rounds may have replaced, are laid over the grids of all
others. `getElem?_gridAfter` says what comes out: every cell is the first cell of the
lowest worker that owns it.
-/

namespace StellarWind

namespace Exchange

/-- The grid of worker `i` after the rounds of the workers below `k`. -/
def gridAfter (tasks : List Task) : Nat → Nat → List Cell
  | 0, i => (tasks[i]?.map (·.cells)).getD []
  | k + 1, i =>
    match tasks[k]? with
    | none => gridAfter tasks k i
    | some t =>
      if i = k then gridAfter tasks k i
      else overlay t.owned (gridAfter tasks k k) (gridAfter tasks k i)

/-- The lowest task that owns a cell, or else the given one. -/
def winner (tasks : List Task) (own : Task) (cell : Nat) : Task :=
  (tasks.find? (·.owned.contains cell)).getD own

section

variable {tasks : List Task}

/-! ## Round after round

In a round the sender keeps its grid and all others take over its share.
-/

theorem gridAfter_zero {i : Nat} {t : Task} (h : tasks[i]? = some t) :
    gridAfter tasks 0 i = t.cells := by
  rw [gridAfter, h]
  rfl

theorem gridAfter_own (k : Nat) : gridAfter tasks (k + 1) k = gridAfter tasks k k := by
  rw [gridAfter]
  split
  · rfl
  · rw [if_pos rfl]

theorem gridAfter_other {k i : Nat} {t : Task} (h : tasks[k]? = some t) (hik : i ≠ k) :
    gridAfter tasks (k + 1) i =
      overlay t.owned (gridAfter tasks k k) (gridAfter tasks k i) := by
  rw [gridAfter, h]
  dsimp only
  rw [if_neg hik]

theorem length_gridAfter {n : Nat} (hlen : ∀ t ∈ tasks, t.cells.length = n) (k : Nat) {i : Nat}
    {t : Task} (h : tasks[i]? = some t) : (gridAfter tasks k i).length = n := by
  induction k with
  | zero =>
      rw [gridAfter_zero h]
      exact hlen t (List.mem_of_getElem? h)
  | succ k ih =>
      rw [gridAfter]
      split
      · exact ih
      · split
        · exact ih
        · rw [length_overlay, ih]

theorem mem_overlay {owned : CellRange} {source target : List Cell} {c : Cell}
    (h : c ∈ overlay owned source target) : c ∈ target ∨ ∃ d ∈ source, c = d.arrived := by
  obtain ⟨j, hj, rfl⟩ := List.mem_mapIdx.mp h
  split
  · cases hs : source[j]? with
    | none => exact .inl (List.getElem_mem hj)
    | some d => exact .inr ⟨d, List.mem_of_getElem? hs, rfl⟩
  · exact .inl (List.getElem_mem hj)

theorem isIndexed_gridAfter (h : ∀ t ∈ tasks, ∀ c ∈ t.cells, c.IsIndexed) (k i : Nat) :
    ∀ c ∈ gridAfter tasks k i, c.IsIndexed := by
  induction k generalizing i with
  | zero =>
      intro c hc
      rw [gridAfter] at hc
      cases hi : tasks[i]? with
      | none => rw [hi] at hc; cases hc
      | some t =>
          rw [hi] at hc
          exact h t (List.mem_of_getElem? hi) c hc
  | succ k ih =>
      intro c hc
      rw [gridAfter] at hc
      split at hc
      · exact ih i c hc
      · split at hc
        · exact ih i c hc
        · -- A cell that was taken over has the numbers that it had in the grid of the sender.
          rcases mem_overlay hc with hc | ⟨d, hd, rfl⟩
          · exact ih i c hc
          · exact (Cell.isIndexed_arrived d).mpr (ih k d hd)

/-! ## The lowest owner wins

A worker sends the cells that it has by then. Where a lower worker owns the same cell, this is
the cell of the lower worker, which all have taken over before. So later rounds do not change a
cell that has an owner already.
-/

theorem winner_mem {own : Task} (h : own ∈ tasks) (k cell : Nat) :
    winner (tasks.take k) own cell ∈ tasks := by
  unfold winner
  cases hf : (tasks.take k).find? (·.owned.contains cell) with
  | none => exact h
  | some t => exact List.mem_of_mem_take (List.mem_of_find?_eq_some hf)

theorem winner_owns {cell : Nat} (h : ∃ t ∈ tasks, t.owned.contains cell) (own : Task) :
    winner tasks own cell ∈ tasks ∧ (winner tasks own cell).owned.contains cell := by
  obtain ⟨t, ht, hcell⟩ := h
  have hfound : (tasks.find? (·.owned.contains cell)).isSome :=
    List.find?_isSome.mpr ⟨t, ht, hcell⟩
  obtain ⟨s, hs⟩ := Option.isSome_iff_exists.mp hfound
  have howns := List.find?_some hs
  rw [winner, hs]
  exact ⟨List.mem_of_find?_eq_some hs, howns⟩

theorem winner_take_succ {k : Nat} {s : Task} (hs : tasks[k]? = some s) (own : Task) (cell : Nat) :
    winner (tasks.take (k + 1)) own cell =
      winner (tasks.take k) (if s.owned.contains cell then s else own) cell := by
  unfold winner
  rw [List.take_add_one, hs, List.find?_append]
  cases (tasks.take k).find? (·.owned.contains cell) with
  | some t => rfl
  | none => by_cases h : s.owned.contains cell = true <;> simp [h]

/-- Among cells that arrive as they are, every worker has in the end the first cell
of the lowest worker that owns it. -/
theorem getElem?_gridAfter {n : Nat} (hlen : ∀ t ∈ tasks, t.cells.length = n)
    (hproper : ∀ t ∈ tasks, ∀ c ∈ t.cells, c.standing.IsProper) (k : Nat) {i : Nat} {t : Task}
    (h : tasks[i]? = some t) (j : Nat) :
    (gridAfter tasks k i)[j]? = (winner (tasks.take k) t j).cells[j]? := by
  -- Induction on the rounds, for all workers at once: what `i` gets in round `k` is what the
  -- sender `k` has.
  induction k generalizing i t with
  | zero =>
      rw [gridAfter_zero h]
      rfl
  | succ k ih =>
      cases hs : tasks[k]? with
      | none =>
          -- There is no worker `k`, and no round of it.
          have hk : tasks.length ≤ k := List.getElem?_eq_none_iff.mp hs
          rw [gridAfter, hs, List.take_of_length_le (by omega)]
          have := ih h
          rwa [List.take_of_length_le hk] at this
      | some s =>
          rw [winner_take_succ hs]
          by_cases hik : i = k
          · subst hik
            obtain rfl : s = t := Option.some.inj (hs.symm.trans h)
            rw [gridAfter_own, ih h, ite_self]
          · have hsame : (gridAfter tasks k k).length = (gridAfter tasks k i).length := by
              rw [length_gridAfter hlen k hs, length_gridAfter hlen k h]
            rw [gridAfter_other hs hik, getElem?_overlay hsame]
            split
            · -- The cell comes from the winner among the workers below `k`, or else from `k`.
              rw [ih hs]
              cases hc : (winner (tasks.take k) s j).cells[j]? with
              | none => rfl
              | some c =>
                  have hmem := winner_mem (List.mem_of_getElem? hs) k j
                  have hc' := hproper _ hmem c (List.mem_of_getElem? hc)
                  rw [Option.map_some, (Cell.arrived_eq_self_iff c).mpr hc']
            · exact ih h

end

end Exchange

end StellarWind
