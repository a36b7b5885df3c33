import StellarWind.Proofs.Plan.Balanced

/-!
# Balanced plans tile the cells

A plan that `Plan.balanced` returns is the even one, so what holds of even shares holds of
it: they follow one another from the first cell to the last, the larger ones stand first, and
every cell has one owner (`Plan.Even`). The check accepts such a plan unless the owners of
all cells are too many to be listed.
-/

namespace StellarWind

namespace Plan

section

variable {total workers : Nat}

/-! ## What a balanced plan is

Here the program is read backwards: a share that was computed is the even one, whatever made it
possible to compute it.
-/

theorem eq_of_evenShare {rank : Nat} {s : Share}
    (h : evenShare (total / workers) (total % workers) rank = .ok s) :
    s = ⟨rank, evenRange total workers rank⟩ := by
  obtain ⟨more, hmore, h⟩ := bind_eq_ok_iff.mp h
  obtain rfl := eq_of_checked hmore
  rw [evenRange, evenStart_succ, evenStart_eq]
  -- A number whose check has passed is the exact one.
  dsimp only at h
  split at h
  · rename_i hlt
    obtain ⟨start, hstart, h⟩ := bind_eq_ok_iff.mp h
    obtain ⟨stop, hstop, h⟩ := bind_eq_ok_iff.mp h
    cases h
    rw [eq_of_checked hstop, eq_of_checked hstart, if_pos hlt, if_pos hlt]
  · rename_i hlt
    obtain ⟨first, hfirst, h⟩ := bind_eq_ok_iff.mp h
    obtain ⟨others, hothers, h⟩ := bind_eq_ok_iff.mp h
    obtain ⟨start, hstart, h⟩ := bind_eq_ok_iff.mp h
    obtain ⟨stop, hstop, h⟩ := bind_eq_ok_iff.mp h
    cases h
    rw [eq_of_checked hstop, eq_of_checked hstart, eq_of_checked hfirst, eq_of_checked hothers,
      if_neg hlt, if_neg hlt]

theorem eq_of_balanced {plan : Plan} (h : balanced total workers = .ok plan) :
    0 < workers ∧ plan = evenPlan total workers := by
  unfold balanced at h
  split at h
  · cases h
  rename_i hworkers
  split at h
  · cases h
  · obtain ⟨shares, hshares, h⟩ := bind_eq_ok_iff.mp h
    cases h
    obtain ⟨hlength, hall⟩ := getElem?_of_mapM (faulting_eq_ok_iff.mp hshares)
    refine ⟨Nat.pos_of_ne_zero hworkers, congrArg (Plan.mk total) ?_⟩
    -- Place by place, since each share is known from its rank.
    apply List.ext_getElem?
    intro i
    rw [List.getElem?_map]
    cases hs : shares[i]? with
    | none =>
        have hle := List.getElem?_eq_none_iff.mp hs
        rw [List.getElem?_eq_none (by omega)]
        rfl
    | some s =>
        obtain ⟨rank, hrank, hshare⟩ := hall i s hs
        rw [hrank, eq_of_evenShare hshare]
        rfl

/-! ## Sizes

The shares in front have one cell more, so that the first one is the largest. Its size is compared
with the rounded quotient by their upper bounds.
-/

theorem size_evenRange (rank : Nat) : (evenRange total workers rank).size =
    if rank < total % workers then total / workers + 1 else total / workers := by
  rw [CellRange.size, evenRange, evenStart_succ]
  exact Nat.add_sub_cancel_left _ _

theorem size_evenRange_anti {a b : Nat} (h : a ≤ b) :
    (evenRange total workers b).size ≤ (evenRange total workers a).size := by
  rw [size_evenRange, size_evenRange]
  split <;> split <;> omega

/-- The rule for the largest share is the quotient, rounded up. -/
theorem evenSize_le_iff (hw : 0 < workers) (k : Nat) :
    evenSize total workers ≤ k ↔ total ≤ k * workers := by
  rw [evenSize, if_neg (Nat.pos_iff_ne_zero.mp hw), Nat.div_le_iff_le_mul_add_pred hw,
    Nat.mul_comm workers k]
  omega

/-- So is the size of the first share. -/
theorem size_first_le_iff (hw : 0 < workers) (k : Nat) :
    (evenRange total workers 0).size ≤ k ↔ total ≤ k * workers := by
  rw [size_evenRange]
  split
  · rename_i hextra
    have hne : total ≠ k * workers := by
      rintro rfl
      rw [Nat.mul_mod_left] at hextra
      omega
    rw [Nat.succ_le_iff, Nat.div_lt_iff_lt_mul hw]
    omega
  · rename_i hextra
    have hdvd : total / workers * workers = total :=
      Nat.div_mul_cancel (Nat.dvd_of_mod_eq_zero (by omega))
    rw [← Nat.mul_le_mul_right_iff hw, hdvd]

theorem largest_evenPlan (hw : 0 < workers) :
    (evenPlan total workers).largest = evenSize total workers := by
  have hfirst (k : Nat) : (evenPlan total workers).largest ≤ k ↔
      (evenRange total workers 0).size ≤ k := by
    rw [largest_le_iff, evenPlan, List.forall_mem_map]
    refine ⟨fun h => h 0 (List.mem_range.mpr hw), fun h rank _ => ?_⟩
    exact Nat.le_trans (size_evenRange_anti (Nat.zero_le rank)) h
  apply Nat.le_antisymm
  · rw [hfirst, size_first_le_iff hw]
    exact (evenSize_le_iff hw _).mp (Nat.le_refl _)
  · rw [evenSize_le_iff hw, ← size_first_le_iff hw]
    exact (hfirst _).mp (Nat.le_refl _)

/-! ## Owners

The owners of a cell are the ranks of all shares that have it. Among even shares only one has it,
so that filtering leaves a single rank.
-/

theorem filter_evenRange {rank cell : Nat} (h : (evenRange total workers rank).contains cell)
    (k : Nat) : (List.range k).filter (fun r => (evenRange total workers r).contains cell) =
      if rank < k then [rank] else [] := by
  induction k with
  | zero => simp
  | succ k ih =>
      rw [List.range_succ, List.filter_append, ih]
      by_cases hk : (evenRange total workers k).contains cell
      · obtain rfl := eq_of_contains_evenRange h hk
        simp [hk]
      · have hne : rank ≠ k := by
          rintro rfl
          exact hk h
        have hlt : rank < k + 1 ↔ rank < k := by omega
        simp [hk, hlt]

theorem owners_evenPlan (hw : 0 < workers) {cell : Nat} (h : cell < total) :
    ∃ rank < workers, (evenPlan total workers).owners cell = [rank] := by
  obtain ⟨rank, hrank, hcontains⟩ := exists_evenRange hw h
  refine ⟨rank, hrank, ?_⟩
  rw [owners, evenPlan, List.filter_map, List.map_map]
  show ((List.range workers).filter fun r => (evenRange total workers r).contains cell).map id = _
  rw [filter_evenRange hcontains, if_pos hrank, List.map_id]

theorem getElem?_evenPlan {i : Nat} {s : Share} :
    (evenPlan total workers).shares[i]? = some s ↔
      i < workers ∧ s = ⟨i, evenRange total workers i⟩ := by
  rw [evenPlan, List.getElem?_map, Option.map_eq_some_iff]
  constructor
  · rintro ⟨rank, hrank, rfl⟩
    obtain ⟨hlt, rfl⟩ := List.getElem?_eq_some_iff.mp hrank
    rw [List.length_range] at hlt
    rw [List.getElem_range]
    exact ⟨hlt, rfl⟩
  · rintro ⟨hlt, rfl⟩
    exact ⟨i, List.getElem?_range hlt, rfl⟩

/-! ## Even plans

All that is claimed of a balanced plan, in terms of its shares and not of the formula.
-/

/-- Shares that follow one another from the first cell to the last and differ by at most one
cell, the larger ones first. -/
structure Even (p : Plan) (total workers : Nat) : Prop where
  sameTotal : p.total = total
  length : p.shares.length = workers
  rank : ∀ (i : Nat) (s : Share), p.shares[i]? = some s → s.rank = i
  ordered : ∀ s ∈ p.shares, s.range.start ≤ s.range.stop
  first : ∃ s, p.shares[0]? = some s ∧ s.range.start = 0
  next : ∀ (i : Nat) (s t : Share), p.shares[i]? = some s → p.shares[i + 1]? = some t →
    t.range.start = s.range.stop
  last : ∃ s, p.shares[workers - 1]? = some s ∧ s.range.stop = total
  larger : p.shares.Pairwise fun s t => t.range.size ≤ s.range.size
  near : ∀ s ∈ p.shares, ∀ t ∈ p.shares, s.range.size ≤ t.range.size + 1
  owner : ∀ cell < total, ∃ rank < workers, p.owners cell = [rank]

theorem even_evenPlan (hw : 0 < workers) : (evenPlan total workers).Even total workers where
  sameTotal := rfl
  length := by simp [evenPlan]
  rank := by
    intro i s hs
    obtain ⟨-, rfl⟩ := getElem?_evenPlan.mp hs
    rfl
  ordered := (covers_evenPlan hw).ordered
  first := ⟨_, getElem?_evenPlan.mpr ⟨hw, rfl⟩, evenStart_zero⟩
  next := by
    intro i s t hs ht
    obtain ⟨-, rfl⟩ := getElem?_evenPlan.mp hs
    obtain ⟨-, rfl⟩ := getElem?_evenPlan.mp ht
    rfl
  last := by
    have hlast : workers - 1 + 1 = workers := Nat.sub_add_cancel hw
    refine ⟨_, getElem?_evenPlan.mpr ⟨by omega, rfl⟩, ?_⟩
    rw [evenRange, hlast]
    exact evenStart_workers hw
  larger := by
    rw [evenPlan, List.pairwise_map]
    exact List.pairwise_lt_range.imp fun hlt => size_evenRange_anti (Nat.le_of_lt hlt)
  near := by
    rw [evenPlan, List.forall_mem_map]
    intro a _
    rw [List.forall_mem_map]
    intro b _
    dsimp only
    -- Every size is the quotient or one more.
    rw [size_evenRange, size_evenRange]
    split <;> split <;> omega
  owner := fun _ => owners_evenPlan hw

/-- A balanced plan tiles the cells, its largest share is the number of cells for each worker,
rounded up, and it passes the check as long as the owners of the cells can be listed. -/
theorem balanced_tiles {plan : Plan} (h : balanced total workers = .ok plan) :
    plan.Even total workers ∧
      (plan.largest = evenSize total workers ∧
        ∀ k, plan.largest ≤ k ↔ total ≤ k * workers) ∧
      plan.check = if total < ownerLimit then .ok () else .error (.fault .outOfMemory) := by
  obtain ⟨hw, rfl⟩ := eq_of_balanced h
  refine ⟨even_evenPlan hw, ⟨largest_evenPlan hw, fun k => ?_⟩, ?_⟩
  · rw [largest_evenPlan hw, evenSize_le_iff hw]
  · split
    · rename_i hsmall
      exact check_evenPlan hw hsmall
    · rename_i hlarge
      exact if_pos (Nat.le_of_not_lt hlarge)

end

/-- Three workers have no cell. -/
theorem balanced_tiles_idle : ∃ plan, balanced 2 5 = .ok plan ∧ plan.Even 2 5 ∧
    plan.largest = 1 ∧ plan.check = .ok () := by
  have hplan : balanced 2 5 = .ok (evenPlan 2 5) := rfl
  obtain ⟨heven, ⟨hlargest, -⟩, hcheck⟩ := balanced_tiles hplan
  exact ⟨_, hplan, heven, hlargest, hcheck⟩

/-- The owners of so many cells cannot be listed, and the check of their plan fails. -/
theorem balanced_beyond_check : ∃ plan, balanced 576460752303423488 1 = .ok plan ∧
    plan.check = .error (.fault .outOfMemory) :=
  ⟨_, balanced_eq (by decide) (by decide) (by decide) (by decide), if_pos (Nat.le_refl _)⟩

end Plan

end StellarWind
