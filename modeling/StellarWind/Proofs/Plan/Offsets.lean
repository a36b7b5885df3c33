import StellarWind.Proofs.Plan.Balanced

/-!
# Offsets of even shares

A share is computed from a few sums and products (`evenTerms`), and it is there exactly if all
of them are in the 64-bit range. Each is at most the total, because the shares lie one behind
the other, apart from the size of a larger share. That one is formed for every worker, also
where no share is larger. Main statement: it is the only one that can leave the range, and it
does so only where one worker has as many cells as can be counted.
-/

namespace StellarWind

namespace Plan

/-- The sums and products that the share of a worker is computed with. -/
def evenTerms (base extra rank : Nat) : List Nat :=
  (base + 1) ::
    if rank < extra then [rank * (base + 1), rank * (base + 1) + (base + 1)]
    else [extra * (base + 1), (rank - extra) * base, extra * (base + 1) + (rank - extra) * base,
      extra * (base + 1) + (rank - extra) * base + base]

/-! ## Shares from their terms

Each term is checked against the range when it is computed, and nothing else can go wrong. The
terms are those of one of the two branches, after the size of a larger share, which both start
with.
-/

/-- There is a share exactly if all its terms are in the range. -/
theorem evenShare_eq_ok_iff (base extra rank : Nat) :
    (∃ s, evenShare base extra rank = .ok s) ↔
      ∀ n ∈ evenTerms base extra rank, n < Count.range64 := by
  unfold evenShare evenTerms
  by_cases h : rank < extra
  · simp only [if_pos h, checked_bind_eq_ok_iff, List.forall_mem_cons]
    constructor
    · rintro ⟨s, hmore, hstart, hstop, -⟩
      exact ⟨hmore, hstart, hstop, List.forall_mem_nil _⟩
    · rintro ⟨hmore, hstart, hstop, -⟩
      exact ⟨_, hmore, hstart, hstop, rfl⟩
  · simp only [if_neg h, checked_bind_eq_ok_iff, List.forall_mem_cons]
    constructor
    · rintro ⟨s, hmore, hfirst, hothers, hstart, hstop, -⟩
      exact ⟨hmore, hfirst, hothers, hstart, hstop, List.forall_mem_nil _⟩
    · rintro ⟨hmore, hfirst, hothers, hstart, hstop, -⟩
      exact ⟨_, hmore, hfirst, hothers, hstart, hstop, rfl⟩

section

variable {total workers : Nat}

/-- All terms but the size of a larger share are places in the grid. -/
theorem le_total_of_mem_evenTerms {rank n : Nat} (hrank : rank < workers)
    (hn : n ∈ evenTerms (total / workers) (total % workers) rank) :
    n = total / workers + 1 ∨ n ≤ total := by
  have hstop : evenStart total workers (rank + 1) ≤ total := evenStart_le hrank (by omega)
  have hnext : evenStart total workers (rank + 1) = _ := evenStart_succ rank
  have hstart : evenStart total workers rank = _ := evenStart_eq rank
  unfold evenTerms at hn
  -- The products are named, since only their order matters from here on.
  by_cases h : rank < total % workers
  · simp only [if_pos h, List.mem_cons, List.not_mem_nil, or_false] at hn hnext hstart
    generalize total / workers = base at hn hnext hstart ⊢
    generalize rank * (base + 1) = start at hn hstart
    omega
  · simp only [if_neg h, List.mem_cons, List.not_mem_nil, or_false] at hn hnext hstart
    generalize total / workers = base at hn hnext hstart ⊢
    generalize total % workers * (base + 1) = first at hn hstart
    generalize (rank - total % workers) * base = others at hn hstart
    omega

/-- The sums and products of even shares stay in the range, apart from one: a larger share than
all cells that can be counted is sized for the one worker who has them. So cells are not divided
if there are no workers, which is reported, if there are more workers than shares can be listed,
and in that one case; the last two are faults. -/
theorem balanced_terms_in_range (workers : Nat) (htotal : total < Count.range64) :
    (∀ base extra rank, (∃ s, evenShare base extra rank = .ok s) ↔
      ∀ n ∈ evenTerms base extra rank, n < Count.range64) ∧
    (∀ rank < workers, ∀ n ∈ evenTerms (total / workers) (total % workers) rank,
      n < Count.range64 ∨ n = Count.range64 ∧ total + 1 = Count.range64 ∧ workers = 1) ∧
    balanced total workers =
      if workers = 0 then .error (.error (.invalidPlan .noWorkers))
      else if shareLimit ≤ workers then .error (.fault .outOfMemory)
      else if total + 1 = Count.range64 ∧ workers = 1 then .error (.fault .overflow)
      else .ok (evenPlan total workers) := by
  refine ⟨evenShare_eq_ok_iff, fun rank hrank n hn => ?_, ?_⟩
  · by_cases h : total + 1 < Count.range64 ∨ 1 < workers
    · left
      rcases le_total_of_mem_evenTerms hrank hn with rfl | hle
      · exact more_lt_range64 htotal h
      · exact Nat.lt_of_le_of_lt hle htotal
    · -- One worker has all the cells, and only the size of a larger share is out of range.
      obtain rfl : workers = 1 := by omega
      rcases le_total_of_mem_evenTerms hrank hn with rfl | hle
      · rw [Nat.div_one]
        omega
      · exact .inl (Nat.lt_of_le_of_lt hle htotal)
  · rcases Nat.eq_zero_or_pos workers with rfl | hw
    · rfl
    · by_cases h : total + 1 = Count.range64 ∧ workers = 1
      · obtain ⟨hlast, rfl⟩ := h
        obtain rfl : total = 18446744073709551615 := by
          unfold Count.range64 at hlast
          omega
        rfl
      · rw [balanced_eq_ite hw htotal (by omega), if_neg (Nat.pos_iff_ne_zero.mp hw), if_neg h]
        split
        · rename_i hshares
          rw [if_neg (Nat.not_le.mpr hshares)]
        · rename_i hshares
          rw [if_pos (Nat.le_of_not_lt hshares)]

/-- Two workers can divide as many cells as can be counted. -/
theorem balanced_terms_in_range_pair :
    18446744073709551615 < Count.range64 ∧
      (∀ rank < 2, ∀ n ∈ evenTerms 9223372036854775807 1 rank, n < Count.range64) ∧
      balanced 18446744073709551615 2 = .ok (evenPlan 18446744073709551615 2) := by
  have htotal : 18446744073709551615 < Count.range64 := by decide
  obtain ⟨-, hterms, hplan⟩ := balanced_terms_in_range 2 htotal
  exact ⟨htotal, fun rank hrank n hn => (hterms rank hrank n hn).resolve_right (by omega), hplan⟩

/-- One worker cannot have as many cells as can be counted, although its share starts and ends in
the range. -/
theorem balanced_last_count :
    0 < 1 ∧ 18446744073709551615 < Count.range64 ∧
      evenRange 18446744073709551615 1 0 = ⟨0, 18446744073709551615⟩ ∧
      18446744073709551616 ∈ evenTerms (18446744073709551615 / 1) (18446744073709551615 % 1) 0 ∧
      balanced 18446744073709551615 1 = .error (.fault .overflow) := by
  refine ⟨Nat.one_pos, by decide, by decide, by decide, rfl⟩

end

end Plan

end StellarWind
