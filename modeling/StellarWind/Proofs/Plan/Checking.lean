import Mathlib.Data.List.Induction
import Mathlib.Data.Nat.Find
import StellarWind.Plan.Basic
import StellarWind.Proofs.Except

/-!
# Checking a plan

The check enters the rank of every share in a table of owners. What the table holds
after the shares so far (`Recorded`) decides how the next share fares: it is entered if
it fits, and otherwise its problem is reported. So a plan passes exactly when each cell
is in one share, and else the first problem is the one that is found.
-/

namespace StellarWind

theorem CellRange.contains_iff (r : CellRange) (cell : Nat) :
    r.contains cell ↔ r.start ≤ cell ∧ cell < r.stop := by
  simp [contains]

theorem CellRange.mem_cells_iff (r : CellRange) (cell : Nat) :
    cell ∈ r.cells ↔ r.contains cell := by
  rw [cells, List.mem_range'_1, contains_iff, size]
  omega

/-- The cells of a range before and after one of them. -/
theorem CellRange.cells_eq_append {r : CellRange} {cell : Nat} (h : r.contains cell) :
    r.cells = List.range' r.start (cell - r.start) ++
      cell :: List.range' (cell + 1) (r.stop - (cell + 1)) := by
  rw [contains_iff] at h
  have hsize : r.size = (cell - r.start) + (r.stop - (cell + 1) + 1) := by
    rw [size]
    omega
  rw [cells, hsize, ← List.range'_append_1, ← List.range'_succ, Nat.add_sub_cancel' h.1]

namespace Plan

/-! ## Plans that are in order and first problems

The check looks at the shares in order, and at the cells of a share in order, and it stops at the
first that is wrong. What it reports is stated here without the table that it works with. A share
can be wrong in two ways: it leaves the grid, or it has a cell of an earlier one. Then the first
such cell counts.
-/

/-- No cell is in both shares. -/
def Apart (a b : Share) : Prop := ∀ cell, a.range.contains cell → ¬ b.range.contains cell

/-- Shares that lie in the grid and have no cell in common. -/
structure Fitting (total : Nat) (shares : List Share) : Prop where
  inside : ∀ s ∈ shares, s.range.stop ≤ total
  apart : shares.Pairwise Apart

/-- Shares that lie in the grid, such that each of its cells is in one of them. -/
structure Divides (p : Plan) : Prop where
  inside : ∀ s ∈ p.shares, s.range.stop ≤ p.total
  once : ∀ cell < p.total, p.shares.countP (·.range.contains cell) = 1

/-- What is wrong with a share when earlier ones have been entered. -/
inductive ShareProblem (total : Nat) (earlier : List Share) (s : Share) : PlanProblem → Prop
  | outside (hstop : total < s.range.stop) :
      ShareProblem total earlier s (.outOfRange s.rank s.range.stop total)
  | clash {cell : Nat} {e : Share} (hstop : s.range.stop ≤ total) (hcell : s.range.contains cell)
      (he : e ∈ earlier) (howned : e.range.contains cell)
      (hleast : ∀ c < cell, s.range.contains c → ∀ e ∈ earlier, ¬ e.range.contains c) :
      ShareProblem total earlier s (.overlap cell e.rank s.rank)

/-- The first thing that is wrong with a plan: with the first share that does not fit, or
else with the first cell that is in no share. -/
inductive FirstProblem (p : Plan) : PlanProblem → Prop
  | share {earlier rest : List Share} {s : Share} {problem : PlanProblem}
      (hshares : p.shares = earlier ++ s :: rest) (hearlier : Fitting p.total earlier)
      (hs : ShareProblem p.total earlier s problem) : FirstProblem p problem
  | unowned {cell : Nat} (hshares : Fitting p.total p.shares) (hcell : cell < p.total)
      (hnone : ∀ s ∈ p.shares, ¬ s.range.contains cell)
      (hleast : ∀ c < cell, ∃ s ∈ p.shares, s.range.contains c) : FirstProblem p (.unowned cell)

theorem fitting_nil (total : Nat) : Fitting total [] := ⟨List.forall_mem_nil _, .nil⟩

theorem Fitting.of_append {total : Nat} {shares more : List Share}
    (h : Fitting total (shares ++ more)) : Fitting total shares :=
  ⟨fun s hs => h.inside s (List.mem_append_left more hs), (List.pairwise_append.mp h.apart).1⟩

theorem fitting_append_singleton {total : Nat} {shares : List Share} {s : Share} :
    Fitting total (shares ++ [s]) ↔
      Fitting total shares ∧ s.range.stop ≤ total ∧ ∀ e ∈ shares, Apart e s := by
  constructor
  · rintro ⟨hinside, hapart⟩
    rw [List.forall_mem_append, List.forall_mem_singleton] at hinside
    rw [List.pairwise_append] at hapart
    exact ⟨⟨hinside.1, hapart.1⟩, hinside.2, fun e he => hapart.2.2 e he s List.mem_cons_self⟩
  · rintro ⟨⟨hinside, hapart⟩, hstop, hs⟩
    refine ⟨?_, ?_⟩
    · rw [List.forall_mem_append, List.forall_mem_singleton]
      exact ⟨hinside, hstop⟩
    · rw [List.pairwise_append]
      refine ⟨hapart, List.pairwise_singleton Apart s, fun e he t ht => ?_⟩
      rw [List.mem_singleton.mp ht]
      exact hs e he

/-! ### Counting the shares of a cell

That shares are apart and cover the cells is the same as that every cell is in exactly one.
-/

/-- Shares have no cell in common exactly when each cell is in one of them at most. -/
theorem pairwise_apart_iff {shares : List Share} :
    shares.Pairwise Apart ↔ ∀ cell, shares.countP (·.range.contains cell) ≤ 1 := by
  induction shares with
  | nil => simp
  | cons s rest ih =>
      rw [List.pairwise_cons, ih]
      constructor
      · rintro ⟨hs, hrest⟩ cell
        rw [List.countP_cons]
        split
        · rename_i hcell
          have hnone : rest.countP (·.range.contains cell) = 0 := by
            rw [List.countP_eq_zero]
            exact fun t ht => hs t ht cell hcell
          omega
        · exact hrest cell
      · intro h
        constructor
        · intro t ht cell hs hcell
          -- A cell in both would be counted for the first share and again for the rest.
          have hpos : 0 < rest.countP (·.range.contains cell) :=
            List.countP_pos_iff.mpr ⟨t, ht, hcell⟩
          have hle := h cell
          rw [List.countP_cons_of_pos (by exact hs)] at hle
          omega
        · intro cell
          have hle := h cell
          rw [List.countP_cons] at hle
          omega

/-- A plan divides the cells exactly when its shares fit and leave no cell out. -/
theorem divides_iff {p : Plan} : p.Divides ↔
    Fitting p.total p.shares ∧ ∀ cell < p.total, ∃ s ∈ p.shares, s.range.contains cell := by
  constructor
  · rintro ⟨hinside, honce⟩
    refine ⟨⟨hinside, pairwise_apart_iff.mpr fun cell => ?_⟩, fun cell hcell => ?_⟩
    · by_cases hcell : cell < p.total
      · exact Nat.le_of_eq (honce cell hcell)
      · -- No share reaches that far.
        have hnone : p.shares.countP (·.range.contains cell) = 0 := by
          rw [List.countP_eq_zero]
          intro s hs hcontains
          have hstop := hinside s hs
          have hlt := ((CellRange.contains_iff _ cell).mp hcontains).2
          omega
        omega
    · apply List.countP_pos_iff.mp
      rw [honce cell hcell]
      exact Nat.one_pos
  · rintro ⟨⟨hinside, hapart⟩, hcovered⟩
    refine ⟨hinside, fun cell hcell => ?_⟩
    have hle := pairwise_apart_iff.mp hapart cell
    have hpos := List.countP_pos_iff.mpr (hcovered cell hcell)
    omega

/-! ## Every plan is in order or has a first problem

With this the outcome of the check is known on all plans once it is known on both kinds. The
induction takes off the last share, since a problem among the others comes first.
-/

/-- The first cell that a share has in common with earlier ones. -/
theorem exists_least_clash {earlier : List Share} {s : Share} (h : ¬ ∀ e ∈ earlier, Apart e s) :
    ∃ cell, s.range.contains cell ∧ (∃ e ∈ earlier, e.range.contains cell) ∧
      ∀ c < cell, s.range.contains c → ∀ e ∈ earlier, ¬ e.range.contains c := by
  have hclash : ∃ cell, s.range.contains cell ∧ ∃ e ∈ earlier, e.range.contains cell := by
    simp only [Apart, not_forall, not_not] at h
    obtain ⟨e, he, cell, howned, hcell⟩ := h
    exact ⟨cell, hcell, e, he, howned⟩
  refine ⟨Nat.find hclash, (Nat.find_spec hclash).1, (Nat.find_spec hclash).2, ?_⟩
  intro c hc hcell e he howned
  exact Nat.find_min hclash hc ⟨hcell, e, he, howned⟩

theorem fits_or_problem (total : Nat) (earlier : List Share) (s : Share) :
    (s.range.stop ≤ total ∧ ∀ e ∈ earlier, Apart e s) ∨
      ∃ problem, ShareProblem total earlier s problem := by
  by_cases hstop : s.range.stop ≤ total
  · by_cases hapart : ∀ e ∈ earlier, Apart e s
    · exact .inl ⟨hstop, hapart⟩
    · obtain ⟨cell, hcell, ⟨e, he, howned⟩, hleast⟩ := exists_least_clash hapart
      exact .inr ⟨_, .clash hstop hcell he howned hleast⟩
  · exact .inr ⟨_, .outside (Nat.not_le.mp hstop)⟩

theorem fitting_or_problem (total : Nat) (shares : List Share) :
    Fitting total shares ∨ ∃ earlier s rest problem, shares = earlier ++ s :: rest ∧
      Fitting total earlier ∧ ShareProblem total earlier s problem := by
  induction shares using List.reverseRecOn with
  | nil => exact .inl (fitting_nil total)
  | append_singleton shares s ih =>
      obtain hfitting | ⟨earlier, t, rest, problem, rfl, hearlier, ht⟩ := ih
      · obtain hs | ⟨problem, hs⟩ := fits_or_problem total shares s
        · exact .inl (fitting_append_singleton.mpr ⟨hfitting, hs⟩)
        · exact .inr ⟨shares, s, [], problem, rfl, hfitting, hs⟩
      · exact .inr ⟨earlier, t, rest ++ [s], problem, by simp, hearlier, ht⟩

theorem divides_or_problem (p : Plan) : p.Divides ∨ ∃ problem, p.FirstProblem problem := by
  obtain hfitting | ⟨earlier, s, rest, problem, hshares, hearlier, hs⟩ :=
    fitting_or_problem p.total p.shares
  · by_cases hcovered : ∀ cell < p.total, ∃ s ∈ p.shares, s.range.contains cell
    · exact .inl (divides_iff.mpr ⟨hfitting, hcovered⟩)
    · have hgap : ∃ cell, cell < p.total ∧ ∀ s ∈ p.shares, ¬ s.range.contains cell := by
        simpa only [not_forall, not_exists, not_and, exists_prop] using hcovered
      obtain ⟨hcell, hnone⟩ := Nat.find_spec hgap
      refine .inr ⟨_, .unowned hfitting hcell hnone fun c hc => ?_⟩
      have howned := Nat.find_min hgap hc
      simp only [not_and, not_forall, not_not, exists_prop] at howned
      exact howned (Nat.lt_trans hc hcell)
  · exact .inr ⟨problem, .share hshares hearlier hs⟩

/-! ## The table of owners

The invariant of the check: the table has the rank of a share in all its cells, and nothing in the
cells of no share (`Recorded`). One more share keeps it if it fits, and is stopped at its problem
if it does not.
-/

section

variable {total : Nat} {owners : Vector (Option Nat) total}

/-- The table has the owners of all cells that the given shares have. -/
structure Recorded (owners : Vector (Option Nat) total) (shares : List Share) : Prop where
  owned : ∀ s ∈ shares, ∀ cell, s.range.contains cell → owners[cell]? = some (some s.rank)
  free : ∀ cell < total, (∀ s ∈ shares, ¬ s.range.contains cell) → owners[cell]? = some none

theorem recorded_replicate : Recorded (Vector.replicate total none) [] where
  owned := List.forall_mem_nil _
  free := fun cell hcell _ => by simp [hcell]

theorem claim_cons_free (rank : Nat) (cells : List Nat) {cell : Nat}
    (h : owners[cell]? = some none) : ∃ hcell : cell < total,
      claim rank (cell :: cells) owners = claim rank cells (owners.set cell (some rank)) := by
  obtain ⟨hcell, hnone⟩ := Vector.getElem?_eq_some_iff.mp h
  refine ⟨hcell, ?_⟩
  rw [claim, dif_pos hcell, hnone]

theorem claim_cons_owned (rank : Nat) (cells : List Nat) {cell other : Nat}
    (h : owners[cell]? = some (some other)) :
    claim rank (cell :: cells) owners = .error (.error (.overlap cell other rank)) := by
  obtain ⟨hcell, hsome⟩ := Vector.getElem?_eq_some_iff.mp h
  rw [claim, dif_pos hcell, hsome]

/-- Cells without an owner are entered, before any others, and nothing else changes. -/
theorem claim_append (rank : Nat) {cells : List Nat} (more : List Nat) (hnodup : cells.Nodup)
    (hfree : ∀ cell ∈ cells, owners[cell]? = some none) :
    ∃ owners' : Vector (Option Nat) total,
      claim rank (cells ++ more) owners = claim rank more owners' ∧
      (∀ cell ∈ cells, owners'[cell]? = some (some rank)) ∧
      ∀ cell, cell ∉ cells → owners'[cell]? = owners[cell]? := by
  induction cells generalizing owners with
  | nil => exact ⟨owners, rfl, List.forall_mem_nil _, fun _ _ => rfl⟩
  | cons first cells ih =>
      rw [List.nodup_cons] at hnodup
      rw [List.forall_mem_cons] at hfree
      obtain ⟨hfirst, hclaim⟩ := claim_cons_free rank (cells ++ more) hfree.1
      have hother {cell : Nat} (hne : first ≠ cell) :
          (owners.set first (some rank))[cell]? = owners[cell]? :=
        Vector.getElem?_set_ne hfirst hne
      have hne : ∀ cell ∈ cells, first ≠ cell := by
        rintro cell hcell rfl
        exact hnodup.1 hcell
      -- The cells behind the first one are still free after it has been entered.
      obtain ⟨owners', hrest, hentered, hkept⟩ := ih hnodup.2 fun cell hcell =>
        (hother (hne cell hcell)).trans (hfree.2 cell hcell)
      refine ⟨owners', hclaim.trans hrest, ?_, fun cell hcell => ?_⟩
      · rw [List.forall_mem_cons]
        exact ⟨(hkept first hnodup.1).trans (Vector.getElem?_set_self hfirst), hentered⟩
      · rw [List.mem_cons, not_or] at hcell
        exact (hkept cell hcell.2).trans (hother (Ne.symm hcell.1))

/-- A share that fits is entered. -/
theorem Recorded.claim {shares : List Share} {s : Share} (h : Recorded owners shares)
    (hstop : s.range.stop ≤ total) (hapart : ∀ e ∈ shares, Apart e s) :
    ∃ owners', Plan.claim s.rank s.range.cells owners = .ok owners' ∧
      Recorded owners' (shares ++ [s]) := by
  -- The cells of the share have no owner yet, since it is apart from the shares before.
  have hfree : ∀ cell ∈ s.range.cells, owners[cell]? = some none := by
    intro cell hcell
    rw [CellRange.mem_cells_iff] at hcell
    have hlt := ((CellRange.contains_iff _ cell).mp hcell).2
    exact h.free cell (by omega) fun e he howned => hapart e he cell howned hcell
  have hnodup : s.range.cells.Nodup := List.nodup_range'
  obtain ⟨owners', hclaim, hentered, hkept⟩ := claim_append s.rank [] hnodup hfree
  simp only [CellRange.mem_cells_iff] at hentered hkept
  rw [List.append_nil] at hclaim
  refine ⟨owners', hclaim, ?_, ?_⟩
  · rw [List.forall_mem_append, List.forall_mem_singleton]
    refine ⟨fun e he cell howned => ?_, hentered⟩
    rw [hkept cell (hapart e he cell howned)]
    exact h.owned e he cell howned
  · intro cell hcell hnone
    rw [List.forall_mem_append, List.forall_mem_singleton] at hnone
    rw [hkept cell hnone.2]
    exact h.free cell hcell hnone.1

/-- A share that does not fit is reported. -/
theorem Recorded.claimAll_problem {shares : List Share} {s : Share} {problem : PlanProblem}
    (h : Recorded owners shares) (hs : ShareProblem total shares s problem) (rest : List Share) :
    claimAll (s :: rest) owners = .error (.error problem) := by
  cases hs with
  | outside hstop => rw [claimAll, if_pos hstop]
  | @clash cell e hstop hcell he howned hleast =>
      have hlt := ((CellRange.contains_iff _ cell).mp hcell).2
      -- The cells of the share before the first one in common have no owner.
      have hfree : ∀ c ∈ List.range' s.range.start (cell - s.range.start),
          owners[c]? = some none := by
        intro c hc
        rw [List.mem_range'_1] at hc
        refine h.free c (by omega) (hleast c (by omega) ?_)
        exact (CellRange.contains_iff _ c).mpr (by omega)
      obtain ⟨owners', hclaim, -, hkept⟩ := claim_append s.rank
        (cell :: List.range' (cell + 1) (s.range.stop - (cell + 1))) List.nodup_range' hfree
      have howner : owners'[cell]? = some (some e.rank) := by
        rw [hkept cell (by rw [List.mem_range'_1]; omega)]
        exact h.owned e he cell howned
      rw [claimAll, if_neg (Nat.not_lt.mpr hstop), CellRange.cells_eq_append hcell, hclaim,
        claim_cons_owned s.rank _ howner]
      rfl

/-- Shares that fit are entered one after another, before any others. -/
theorem Recorded.claimAll_append {shares more : List Share} (h : Recorded owners shares)
    (hfitting : Fitting total (shares ++ more)) (rest : List Share) :
    ∃ owners' : Vector (Option Nat) total,
      claimAll (more ++ rest) owners = claimAll rest owners' ∧
      Recorded owners' (shares ++ more) := by
  induction more generalizing shares owners with
  | nil => exact ⟨owners, rfl, by rwa [List.append_nil]⟩
  | cons s more ih =>
      rw [List.append_cons] at hfitting ⊢
      obtain ⟨-, hstop, hapart⟩ := fitting_append_singleton.mp (hfitting.of_append)
      obtain ⟨owners', hclaim, hrecorded⟩ := h.claim hstop hapart
      obtain ⟨owners'', hrest, hall⟩ := ih hrecorded hfitting
      refine ⟨owners'', ?_, hall⟩
      rw [List.cons_append, claimAll, if_neg (Nat.not_lt.mpr hstop), hclaim, ok_bind, hrest]

end

/-! ## The check

After all shares the table is searched for a cell without an owner, and by the invariant that is
one that no share has.
-/

section

variable {p : Plan}

theorem check_eq (hsmall : p.total < ownerLimit) : p.check =
    match claimAll p.shares (Vector.replicate p.total none) with
    | .error failure => .error (failure.map .invalidPlan)
    | .ok owners => match owners.toList.findIdx? Option.isNone with
      | some cell => .error (.error (.invalidPlan (.unowned cell)))
      | none => .ok () :=
  if_neg (Nat.not_le.mpr hsmall)

theorem exists_recorded (h : Fitting p.total p.shares) :
    ∃ owners, claimAll p.shares (Vector.replicate p.total none) = .ok owners ∧
      Recorded owners p.shares := by
  obtain ⟨owners, hclaim, hrecorded⟩ :=
    recorded_replicate.claimAll_append ((List.nil_append p.shares).symm ▸ h) []
  rw [List.append_nil] at hclaim
  exact ⟨owners, hclaim, hrecorded⟩

/-- A cell is without an owner exactly when no share has it. -/
theorem Recorded.isNone_iff {total : Nat} {owners : Vector (Option Nat) total}
    {shares : List Share} (h : Recorded owners shares) {cell : Nat} (hcell : cell < total) :
    owners[cell].isNone ↔ ∀ s ∈ shares, ¬ s.range.contains cell := by
  constructor
  · intro hnone s hs hcontains
    have howned := h.owned s hs cell hcontains
    rw [Vector.getElem?_eq_getElem hcell, Option.some.injEq] at howned
    rw [howned] at hnone
    cases hnone
  · intro hnone
    have hfree := h.free cell hcell hnone
    rw [Vector.getElem?_eq_getElem hcell, Option.some.injEq] at hfree
    rw [hfree]
    rfl

/-- A plan that divides the cells passes. -/
theorem check_of_divides (h : p.Divides) (hsmall : p.total < ownerLimit) : p.check = .ok () := by
  obtain ⟨hfitting, hcovered⟩ := divides_iff.mp h
  obtain ⟨owners, hclaim, hrecorded⟩ := exists_recorded hfitting
  have hnone : owners.toList.findIdx? Option.isNone = none := by
    rw [List.findIdx?_eq_none_iff]
    intro owner howner
    obtain ⟨cell, hcell, rfl⟩ := List.getElem_of_mem howner
    rw [Vector.length_toList] at hcell
    obtain ⟨s, hs, hcontains⟩ := hcovered cell hcell
    rw [Vector.getElem_toList, Bool.eq_false_iff, ne_eq, hrecorded.isNone_iff hcell]
    exact fun hnone => hnone s hs hcontains
  rw [check_eq hsmall, hclaim]
  dsimp only
  rw [hnone]

/-- The first problem of a plan is the one that is reported. -/
theorem check_of_firstProblem {problem : PlanProblem} (h : p.FirstProblem problem)
    (hsmall : p.total < ownerLimit) : p.check = .error (.error (.invalidPlan problem)) := by
  cases h with
  | @share earlier rest s _ hshares hearlier hs =>
      -- The shares before the bad one are entered, and then it is refused.
      obtain ⟨owners, hclaim, hrecorded⟩ := recorded_replicate.claimAll_append
        ((List.nil_append earlier).symm ▸ hearlier) (s :: rest)
      rw [check_eq hsmall, hshares, hclaim, hrecorded.claimAll_problem hs]
      rfl
  | @unowned cell hfitting hcell hnone hleast =>
      -- All shares are entered, and the cells without an owner are those in no share.
      obtain ⟨owners, hclaim, hrecorded⟩ := exists_recorded hfitting
      have hfirst : owners.toList.findIdx? Option.isNone = some cell := by
        rw [List.findIdx?_eq_some_iff_getElem]
        refine ⟨by rwa [Vector.length_toList], ?_, fun c hc => ?_⟩
        · rw [Vector.getElem_toList, hrecorded.isNone_iff hcell]
          exact hnone
        · obtain ⟨s, hs, hcontains⟩ := hleast c hc
          rw [Vector.getElem_toList, hrecorded.isNone_iff (Nat.lt_trans hc hcell)]
          exact fun hnone => hnone s hs hcontains
      rw [check_eq hsmall, hclaim]
      dsimp only
      rw [hfirst]

/-! ### No other outcome

A plan divides the cells or has a first problem, and what the check says is known in both cases.
-/

theorem check_cases (hsmall : p.total < ownerLimit) : p.check = .ok () ∧ p.Divides ∨
    ∃ problem, p.check = .error (.error (.invalidPlan problem)) ∧ p.FirstProblem problem := by
  obtain hdivides | ⟨problem, hproblem⟩ := p.divides_or_problem
  · exact .inl ⟨check_of_divides hdivides hsmall, hdivides⟩
  · exact .inr ⟨problem, check_of_firstProblem hproblem hsmall, hproblem⟩

theorem divides_of_check (h : p.check = .ok ()) : p.Divides := by
  have hsmall : p.total < ownerLimit := by
    rw [← Nat.not_le]
    intro hlarge
    rw [check, if_pos hlarge] at h
    cases h
  obtain ⟨-, hdivides⟩ | ⟨problem, hproblem, -⟩ := check_cases hsmall
  · exact hdivides
  · rw [h] at hproblem
    cases hproblem

/-- The check is exact. It accepts the plans that divide the cells, and it reports the first
problem of every other plan. It has no other outcome, as long as the owners of the cells can
be listed. -/
theorem check_exact (hsmall : p.total < ownerLimit) :
    (p.check = .ok () ↔ (∀ s ∈ p.shares, s.range.stop ≤ p.total) ∧
      ∀ cell < p.total, p.shares.countP (·.range.contains cell) = 1) ∧
    (∀ problem, p.check = .error (.error (.invalidPlan problem)) ↔ p.FirstProblem problem) ∧
    (p.check = .ok () ∨ ∃ problem, p.check = .error (.error (.invalidPlan problem))) ∧
    ∀ fault, p.check ≠ .error (.fault fault) := by
  refine ⟨⟨?_, ?_⟩, fun problem => ⟨?_, ?_⟩, ?_, ?_⟩
  · intro h
    exact ⟨(divides_of_check h).inside, (divides_of_check h).once⟩
  · rintro ⟨hinside, honce⟩
    exact check_of_divides ⟨hinside, honce⟩ hsmall
  · -- The check has one outcome only, so that a problem it reports is the first one.
    intro h
    obtain ⟨hok, -⟩ | ⟨other, hother, hfirst⟩ := check_cases hsmall
    · rw [h] at hok
      cases hok
    · rw [h] at hother
      cases hother
      exact hfirst
  · exact fun h => check_of_firstProblem h hsmall
  · obtain ⟨hok, -⟩ | ⟨problem, hproblem, -⟩ := check_cases hsmall
    · exact .inl hok
    · exact .inr ⟨problem, hproblem⟩
  · intro fault h
    obtain ⟨hok, -⟩ | ⟨problem, hproblem, -⟩ := check_cases hsmall
    · rw [h] at hok
      cases hok
    · rw [h] at hproblem
      cases hproblem

end

/-- Two shares of one rank, the second of them reversed, one that takes a cell of the first
and one that leaves the grid. -/
def contested : Plan := ⟨4, [⟨7, ⟨0, 2⟩⟩, ⟨7, ⟨3, 1⟩⟩, ⟨2, ⟨1, 4⟩⟩, ⟨5, ⟨0, 9⟩⟩]⟩

theorem check_exact_contested :
    contested.check = .error (.error (.invalidPlan (.overlap 1 7 2))) ∧
      contested.FirstProblem (.overlap 1 7 2) := by
  have hcheck : contested.check = .error (.error (.invalidPlan (.overlap 1 7 2))) := rfl
  obtain ⟨-, hproblem, -⟩ := check_exact (p := contested) (by decide)
  exact ⟨hcheck, (hproblem _).mp hcheck⟩

end Plan

end StellarWind
