import StellarWind.Proofs.Plan.Checking

/-!
# Even shares

`evenStart` says in one formula where the share of a worker starts. Each share ends
where the next one starts and the last one ends at the total, so that the shares
cover all cells and their sizes add up. No cell is in two of them, and so they pass
the check of a plan.
-/

namespace StellarWind

namespace Plan

/-- Where the share of a worker starts when cells are divided evenly. -/
def evenStart (total workers rank : Nat) : Nat :=
  rank * (total / workers) + min rank (total % workers)

/-- The cells of a worker when cells are divided evenly. -/
def evenRange (total workers rank : Nat) : CellRange :=
  ⟨evenStart total workers rank, evenStart total workers (rank + 1)⟩

/-- The plan that divides cells evenly. -/
def evenPlan (total workers : Nat) : Plan :=
  ⟨total, (List.range workers).map fun rank => ⟨rank, evenRange total workers rank⟩⟩

/-- The shares lie in a grid of `n` cells and cover it. -/
structure Covers (p : Plan) (n : Nat) : Prop where
  shared : p.shares ≠ []
  ordered : ∀ s ∈ p.shares, s.range.start ≤ s.range.stop
  inside : ∀ s ∈ p.shares, s.range.stop ≤ n
  covered : ∀ cell < n, ∃ s ∈ p.shares, s.range.contains cell

section

variable {total workers : Nat}

/-! ## Where shares start

The formula is compared with the program, which has one for the larger shares and another for the
others (`evenStart_eq`), and with itself from one worker to the next (`evenStart_succ`).
-/

theorem evenStart_zero : evenStart total workers 0 = 0 := by
  simp [evenStart]

theorem evenStart_mono {a b : Nat} (h : a ≤ b) :
    evenStart total workers a ≤ evenStart total workers b := by
  have hmul := Nat.mul_le_mul_right (total / workers) h
  unfold evenStart
  omega

theorem evenStart_workers (hw : 0 < workers) : evenStart total workers workers = total := by
  have hmod := Nat.mod_lt total hw
  rw [evenStart, Nat.min_eq_right (Nat.le_of_lt hmod)]
  exact Nat.div_add_mod total workers

theorem evenStart_le {rank : Nat} (h : rank ≤ workers) (hw : 0 < workers) :
    evenStart total workers rank ≤ total := by
  calc evenStart total workers rank
      ≤ evenStart total workers workers := evenStart_mono h
    _ = total := evenStart_workers hw

/-- The first shares have one cell more. -/
theorem evenStart_succ (rank : Nat) : evenStart total workers (rank + 1) =
    evenStart total workers rank +
      if rank < total % workers then total / workers + 1 else total / workers := by
  have hnext : (rank + 1) * (total / workers) = rank * (total / workers) + total / workers :=
    Nat.succ_mul rank (total / workers)
  unfold evenStart
  split <;> omega

/-- Where a share starts, by the shares of either size before it. -/
theorem evenStart_eq (rank : Nat) : evenStart total workers rank =
    if rank < total % workers then rank * (total / workers + 1)
    else total % workers * (total / workers + 1) +
      (rank - total % workers) * (total / workers) := by
  rw [evenStart]
  split
  · rename_i h
    rw [Nat.min_eq_left (Nat.le_of_lt h), Nat.mul_succ]
  · rename_i h
    have hle := Nat.mul_le_mul_right (total / workers) (Nat.le_of_not_lt h)
    rw [Nat.min_eq_right (Nat.le_of_not_lt h), Nat.mul_succ, Nat.sub_mul]
    omega

/-! ## The shares are even

All that is computed for a share is a place in the grid or the size of a larger share. So no sum
leaves the range if that size does not.
-/

/-- No step leaves the 64-bit range when the largest share does not. -/
theorem evenShare_eq {rank : Nat} (hrank : rank < workers) (htotal : total < Count.range64)
    (hmore : total / workers + 1 < Count.range64) :
    evenShare (total / workers) (total % workers) rank =
      .ok ⟨rank, evenRange total workers rank⟩ := by
  have hstop : evenStart total workers (rank + 1) ≤ total := evenStart_le hrank (by omega)
  have hstart : evenStart total workers rank ≤ evenStart total workers (rank + 1) :=
    evenStart_mono (Nat.le_succ rank)
  have hnext : evenStart total workers (rank + 1) = _ := evenStart_succ rank
  have heq : evenStart total workers rank = _ := evenStart_eq rank
  -- Apart from the size of a larger share, no number on the way is beyond the end of this one.
  unfold evenShare
  rw [checked_ok hmore, ok_bind]
  by_cases h : rank < total % workers
  · rw [if_pos h] at hnext heq
    rw [if_pos h, if_pos h, ← heq, checked_ok (by omega), ok_bind]
    dsimp only
    rw [← hnext, checked_ok (by omega)]
    rfl
  · rw [if_neg h] at hnext heq
    rw [if_neg h, if_neg h, checked_ok (by omega), ok_bind, checked_ok (by omega), ok_bind, ← heq,
      checked_ok (by omega), ok_bind]
    dsimp only
    rw [← hnext, checked_ok (by omega)]
    rfl

theorem balanced_eq (hw : 0 < workers) (hshares : workers < shareLimit)
    (htotal : total < Count.range64) (hmore : total / workers + 1 < Count.range64) :
    balanced total workers = .ok (evenPlan total workers) := by
  have hall : (List.range workers).mapM (evenShare (total / workers) (total % workers)) =
      .ok (evenPlan total workers).shares :=
    mapM_eq_ok fun rank hrank => evenShare_eq (List.mem_range.mp hrank) htotal hmore
  rw [balanced, if_neg (Nat.pos_iff_ne_zero.mp hw), if_neg (Nat.not_le.mpr hshares), hall]
  rfl

/-- More workers than shares can be listed are refused before any share is computed. -/
theorem balanced_crowd (hshares : shareLimit ≤ workers) :
    balanced total workers = .error (.fault .outOfMemory) := by
  have hw : workers ≠ 0 := by
    unfold shareLimit at hshares
    omega
  rw [balanced, if_neg hw, if_pos hshares]

/-- The size of a larger share leaves the range only where one worker has all cells that can be
counted. -/
theorem more_lt_range64 (htotal : total < Count.range64)
    (h : total + 1 < Count.range64 ∨ 1 < workers) : total / workers + 1 < Count.range64 := by
  rcases h with hsmall | hshared
  · have hdiv : total / workers ≤ total := Nat.div_le_self total workers
    omega
  · have hhalf : total / workers ≤ total / 2 := Nat.div_le_div_left hshared (by omega)
    unfold Count.range64 at htotal ⊢
    omega

/-- Where a larger share can be sized, cells are divided as long as the shares can be listed. -/
theorem balanced_eq_ite (hw : 0 < workers) (htotal : total < Count.range64)
    (h : total + 1 < Count.range64 ∨ 1 < workers) :
    balanced total workers = if workers < shareLimit
      then .ok (evenPlan total workers) else .error (.fault .outOfMemory) := by
  split
  · rename_i hshares
    exact balanced_eq hw hshares htotal (more_lt_range64 htotal h)
  · rename_i hshares
    exact balanced_crowd (Nat.le_of_not_lt hshares)

/-! ## Every cell has a share

The starts begin at zero, end at the total and do not fall. A cell is in the last share that starts
at or before it, and in no other.
-/

theorem exists_evenRange (hw : 0 < workers) {cell : Nat} (h : cell < total) :
    ∃ rank < workers, (evenRange total workers rank).contains cell := by
  -- By induction on the share: the first one that ends behind the cell has it.
  have hbelow : ∀ k, cell < evenStart total workers k →
      ∃ rank < k, (evenRange total workers rank).contains cell := by
    intro k hk
    induction k with
    | zero =>
        rw [evenStart_zero] at hk
        omega
    | succ k ih =>
        by_cases hlt : cell < evenStart total workers k
        · obtain ⟨rank, hrank, hcell⟩ := ih hlt
          exact ⟨rank, Nat.lt_succ_of_lt hrank, hcell⟩
        · refine ⟨k, Nat.lt_succ_self k, ?_⟩
          exact (CellRange.contains_iff _ cell).mpr ⟨Nat.le_of_not_lt hlt, hk⟩
  apply hbelow
  rwa [evenStart_workers hw]

/-- No cell is in two shares. -/
theorem eq_of_contains_evenRange {a b cell : Nat} (ha : (evenRange total workers a).contains cell)
    (hb : (evenRange total workers b).contains cell) : a = b := by
  have hbelow {a b : Nat} (ha : (evenRange total workers a).contains cell)
      (hb : (evenRange total workers b).contains cell) : b ≤ a := by
    apply Nat.le_of_not_lt
    intro hlt
    have hmono : evenStart total workers (a + 1) ≤ evenStart total workers b := evenStart_mono hlt
    have hstop := ((CellRange.contains_iff _ cell).mp ha).2
    have hstart := ((CellRange.contains_iff _ cell).mp hb).1
    exact absurd (Nat.lt_of_lt_of_le hstop (Nat.le_trans hmono hstart)) (Nat.lt_irrefl cell)
  exact Nat.le_antisymm (hbelow hb ha) (hbelow ha hb)

theorem covers_evenPlan (hw : 0 < workers) : (evenPlan total workers).Covers total where
  shared := by
    simp only [evenPlan, ne_eq, List.map_eq_nil_iff, List.range_eq_nil]
    omega
  ordered := List.forall_mem_map.mpr fun rank _ => evenStart_mono (Nat.le_succ rank)
  inside := List.forall_mem_map.mpr fun rank hrank => evenStart_le (List.mem_range.mp hrank) hw
  covered := by
    intro cell hcell
    obtain ⟨rank, hrank, hcontains⟩ := exists_evenRange hw hcell
    exact ⟨_, List.mem_map_of_mem (List.mem_range.mpr hrank), hcontains⟩

/-- The sizes of the shares below `k` add up to the start of the next one. -/
theorem sum_size_evenRange (k : Nat) :
    ((List.range k).map fun rank => (evenRange total workers rank).size).sum =
      evenStart total workers k := by
  induction k with
  | zero => exact evenStart_zero.symm
  | succ k ih =>
      have hle : evenStart total workers k ≤ evenStart total workers (k + 1) :=
        evenStart_mono (Nat.le_succ k)
      rw [List.range_succ, List.map_append, List.sum_append, ih]
      exact Nat.add_sub_cancel' hle

theorem sum_size_evenPlan (hw : 0 < workers) :
    ((evenPlan total workers).shares.map (·.range.size)).sum = total := by
  rw [evenPlan, List.map_map]
  exact (sum_size_evenRange workers).trans (evenStart_workers hw)

end

/-! ## The largest share

The largest share is found by going through all of them, and it is known by its upper bounds.
-/

theorem foldl_max_le {xs : List Nat} {first bound : Nat} :
    xs.foldl max first ≤ bound ↔ first ≤ bound ∧ ∀ x ∈ xs, x ≤ bound := by
  induction xs generalizing first with
  | nil => simp
  | cons x xs ih =>
      rw [List.foldl_cons, ih, List.forall_mem_cons, Nat.max_le, and_assoc]

theorem largest_le_iff {p : Plan} {bound : Nat} :
    p.largest ≤ bound ↔ ∀ s ∈ p.shares, s.range.size ≤ bound := by
  rw [largest, foldl_max_le, List.forall_mem_map]
  exact and_iff_right (Nat.zero_le bound)

theorem size_le_largest {p : Plan} {s : Share} (h : s ∈ p.shares) : s.range.size ≤ p.largest :=
  largest_le_iff.mp (Nat.le_refl p.largest) s h

/-! ## The check of a plan

Even shares cover the cells and are apart, and that is all that the check asks for.
-/

/-- A plan whose shares cover the cells, each of them once, passes the check. -/
theorem check_of_covers {p : Plan} (h : p.Covers p.total) (hapart : p.shares.Pairwise Apart)
    (hsmall : p.total < ownerLimit) : p.check = .ok () :=
  check_of_divides (divides_iff.mpr ⟨⟨h.inside, hapart⟩, h.covered⟩) hsmall

theorem check_evenPlan {total workers : Nat} (hw : 0 < workers) (hsmall : total < ownerLimit) :
    (evenPlan total workers).check = .ok () := by
  refine check_of_covers (covers_evenPlan hw) ?_ hsmall
  rw [evenPlan, List.pairwise_map]
  refine List.pairwise_lt_range.imp fun {a b} hab cell ha hb => ?_
  exact absurd (eq_of_contains_evenRange ha hb) (Nat.ne_of_lt hab)

end Plan

end StellarWind
