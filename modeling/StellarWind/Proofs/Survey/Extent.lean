import StellarWind.Proofs.Exchange.Opening
import StellarWind.Proofs.Plan.Offsets
import StellarWind.Proofs.Plan.Tiling
import StellarWind.Proofs.Settings.Document
import StellarWind.Proofs.Survey.Running

/-!
# Counts before the first round

Before the workers of a survey exchange anything, three counts are computed from its
settings: the cells of the mesh, the offsets of the shares, and the bytes of a round. The
check of settings refuses an empty mesh and has no upper limit. Main statement: each count
is exact unless its value leaves the 64-bit range, and all three are there exactly if the
cells and the bytes of a round for the largest share are in the range and the shares of all
workers can be listed.
-/

namespace StellarWind

/-! ## Cells

Only a mesh with two directions multiplies, and the product is checked.
-/

theorem Mesh.size_eq_ite {m : Mesh} (h : ∀ n ∈ m.counts, n < Count.range64) :
    m.size = if m.cellCount < Count.range64 then .ok m.cellCount else .error .overflow := by
  obtain ⟨system, columns, rows⟩ := m
  cases system with
  | spherical => exact (if_pos (h columns List.mem_cons_self)).symm
  | cylindrical => rfl

/-! ## Bytes

The bytes of a round are those of the largest share, and the sizes of all shares are known from the
total and the number of workers. The offsets can leave the range in one case only, and there the
bytes do too, so that the outcome is the same.
-/

namespace Survey

open Exchange

theorem capacity_largest (seat : Seat) {total workers : Nat} {plan : Plan}
    (h : Plan.balanced total workers = .ok plan) :
    Cell.schema.capacity (withCone seat) [seat.registry.next] plan.largest =
      if roundBytes (Plan.evenSize total workers) < Count.range64
      then .ok (roundBytes (Plan.evenSize total workers)) else .error (.fault .overflow) := by
  obtain ⟨hw, rfl⟩ := Plan.eq_of_balanced h
  rw [capacity_schema, Plan.largest_evenPlan hw]
  exact faulting_checked_eq_ite _

/-- The offsets of the shares add nothing to when a count leaves the range: if they do not fit,
neither does the round of the one worker. -/
theorem capacity_of_balanced (seat : Seat) {total workers : Nat} (hw : 0 < workers)
    (htotal : total < Count.range64) :
    (do
      let plan ← Plan.balanced total workers
      Cell.schema.capacity (withCone seat) [seat.registry.next] plan.largest) =
      if workers < Plan.shareLimit then
        if roundBytes (Plan.evenSize total workers) < Count.range64
        then .ok (roundBytes (Plan.evenSize total workers)) else .error (.fault .overflow)
      else .error (.fault .outOfMemory) := by
  by_cases h : total + 1 < Count.range64 ∨ 1 < workers
  · have hplan := Plan.balanced_eq_ite hw htotal h
    split at hplan <;> rename_i hshares
    · rw [hplan, ok_bind, if_pos hshares]
      exact capacity_largest seat hplan
    · rw [hplan, if_neg hshares]
      rfl
  · -- One worker has all cells that can be counted, and both sides can be computed.
    obtain rfl : workers = 1 := by omega
    obtain rfl : total = 18446744073709551615 := by
      unfold Count.range64 at htotal h
      omega
    rfl

/-- Settings that pass their check may still describe a survey that cannot begin. Each count is
exact unless it leaves the 64-bit range, and all are there exactly if the cells are in the
range, the shares can be listed and the bytes of a round for the largest share are in the
range. -/
theorem counts_exact_or_overflow [Elementary] {s : Settings} (hcheck : s.check = .ok ())
    (hcounts : ∀ n ∈ s.counts, n < Count.range64) :
    s.mesh.size =
        (if s.mesh.cellCount < Count.range64 then .ok s.mesh.cellCount else .error .overflow) ∧
      (s.mesh.cellCount < Count.range64 →
        s.mesh.cellCount + 1 < Count.range64 ∨ 1 < s.workers →
        Plan.balanced s.mesh.cellCount s.workers = if s.workers < Plan.shareLimit
          then .ok (.evenPlan s.mesh.cellCount s.workers) else .error (.fault .outOfMemory)) ∧
      (∀ (seat : Seat) (plan : Plan), Plan.balanced s.mesh.cellCount s.workers = .ok plan →
        Cell.schema.capacity (withCone seat) [seat.registry.next] plan.largest =
          if roundBytes (Plan.evenSize s.mesh.cellCount s.workers) < Count.range64
          then .ok (roundBytes (Plan.evenSize s.mesh.cellCount s.workers))
          else .error (.fault .overflow)) ∧
      ∀ seat : Seat,
        (do
          let cells ← faulting s.mesh.size
          let plan ← Plan.balanced cells s.workers
          Cell.schema.capacity (withCone seat) [seat.registry.next] plan.largest) =
          if s.mesh.cellCount < Count.range64 then
            if s.workers < Plan.shareLimit then
              if roundBytes (Plan.evenSize s.mesh.cellCount s.workers) < Count.range64
              then .ok (roundBytes (Plan.evenSize s.mesh.cellCount s.workers))
              else .error (.fault .overflow)
            else .error (.fault .outOfMemory)
          else .error (.fault .overflow) := by
  obtain ⟨hw, -, -⟩ := parts_of_check hcheck
  have hsize : s.mesh.size = _ := Mesh.size_eq_ite fun n hn =>
    hcounts n (List.mem_append_left _ (List.mem_append_right _ hn))
  refine ⟨hsize, Plan.balanced_eq_ite hw, fun seat plan => capacity_largest seat, fun seat => ?_⟩
  rw [hsize]
  by_cases hn : s.mesh.cellCount < Count.range64
  · rw [if_pos hn, if_pos hn]
    exact capacity_of_balanced seat hw hn
  · rw [if_neg hn, if_neg hn]
    rfl

/-- Settings of a cylindrical mesh with as many columns and rows as one likes. -/
def spacious (columns rows workers : Nat) : Settings where
  workers := workers
  mesh := { Mesh.default with columns := columns, rows := rows }
  recipe := .edges [1e14, 1e16, 1e18] 0
  photonsPerCell := 0
  seed := 1
  freqMin := 1e14
  freqMax := 1e18

/-- Two hundred workers can still begin with as many cells as one worker could not send. -/
theorem counts_exact_or_overflow_spacious :
    ∃ s : Settings, s = spacious 4294967296 2147483648 200 ∧
      s.check = .ok () ∧ (∀ n ∈ s.counts, n < Count.range64) ∧
      s.mesh.size = .ok 9223372036854775808 ∧
      Plan.balanced 9223372036854775808 200 = .ok (.evenPlan 9223372036854775808 200) ∧
      ∀ seat : Seat,
        (do
          let cells ← faulting s.mesh.size
          let plan ← Plan.balanced cells s.workers
          Cell.schema.capacity (withCone seat) [seat.registry.next] plan.largest) =
          .ok 13097188292333781924 := by
  have hcheck : (spacious 4294967296 2147483648 200).check = .ok () :=
    eq_ok_of_isOk (by decide +kernel)
  have hcounts : ∀ n ∈ (spacious 4294967296 2147483648 200).counts, n < Count.range64 := by decide
  obtain ⟨hsize, hplan, -, hall⟩ := counts_exact_or_overflow hcheck hcounts
  exact ⟨_, rfl, hcheck, hcounts, hsize, hplan (by decide) (by decide), hall⟩

/-- Settings pass their check although the number of cells cannot be computed. With half as many
cells it can, and the offsets of the one share too, but not the bytes of a round. -/
theorem checked_counts_overflow :
    (spacious 4294967296 4294967296 1).check = .ok () ∧
      (∀ n ∈ (spacious 4294967296 4294967296 1).counts, n < Count.range64) ∧
      (spacious 4294967296 4294967296 1).mesh.size = .error .overflow ∧
      (spacious 4294967296 2147483648 1).check = .ok () ∧
      (spacious 4294967296 2147483648 1).mesh.size = .ok 9223372036854775808 ∧
      ∃ plan, Plan.balanced 9223372036854775808 1 = .ok plan ∧
        ∀ seat : Seat, Cell.schema.capacity (withCone seat) [seat.registry.next] plan.largest =
          .error (.fault .overflow) := by
  have hplan : Plan.balanced 9223372036854775808 1 = .ok (.evenPlan 9223372036854775808 1) := rfl
  refine ⟨eq_ok_of_isOk (by decide +kernel), by decide, rfl,
    eq_ok_of_isOk (by decide +kernel), rfl, _, hplan, fun seat => ?_⟩
  rw [capacity_largest seat hplan]
  rfl

end Survey

end StellarWind
