import StellarWind.Proofs.Exchange.Convergence
import StellarWind.Proofs.Plan.Balanced

/-!
# Exchanges by a plan

A plan is checked by its cells, so that a share that is reversed passes like an empty
one. An exchange takes an empty share but not a reversed one: with a checked plan it has
a result on all workers if every share is ordered, and otherwise an error on all.
-/

namespace StellarWind

namespace Plan

/-- The shares of a checked plan end inside the grid. -/
theorem stop_le_of_check {p : Plan} (h : p.check = .ok ()) :
    ∀ s ∈ p.shares, s.range.stop ≤ p.total :=
  (divides_of_check h).inside

theorem largest_le_total {p : Plan} (h : p.check = .ok ()) : p.largest ≤ p.total := by
  refine largest_le_iff.mpr fun s hs => ?_
  exact Nat.le_trans (Nat.sub_le _ _) (stop_le_of_check h s hs)

/-- What the workers of a plan bring to an exchange, each with its own copy of the grid. -/
def tasks (p : Plan) (grids : List (List Cell)) : List Exchange.Task :=
  List.zipWith (fun s cells => ⟨cells, s.range, p.largest⟩) p.shares grids

theorem getElem?_tasks {p : Plan} {grids : List (List Cell)} {k : Nat} {s : Share}
    (hgrids : grids.length = p.shares.length) (hs : p.shares[k]? = some s) :
    ∃ cells ∈ grids, (p.tasks grids)[k]? = some ⟨cells, s.range, p.largest⟩ := by
  have hk : k < grids.length := by
    rw [hgrids]
    exact (List.getElem?_eq_some_iff.mp hs).1
  refine ⟨grids[k], List.getElem_mem hk, ?_⟩
  rw [tasks, List.getElem?_zipWith, hs, List.getElem?_eq_getElem hk]

theorem exists_of_mem_tasks {p : Plan} {grids : List (List Cell)} {t : Exchange.Task}
    (h : t ∈ p.tasks grids) :
    ∃ s ∈ p.shares, ∃ cells ∈ grids, t = ⟨cells, s.range, p.largest⟩ := by
  rw [tasks, ← List.map_uncurry_zip_eq_zipWith] at h
  obtain ⟨⟨s, cells⟩, hmem, rfl⟩ := List.mem_map.mp h
  obtain ⟨hs, hcells⟩ := List.of_mem_zip hmem
  exact ⟨s, hs, cells, hcells, rfl⟩

end Plan

namespace Exchange

open Transfer

/-! ## Reversed shares

A reversed share has no cells, but it cannot be cut out of a grid either. So its worker fails
in its own round, after the shares before it have been merged.
-/

theorem Worker.packing_reversed {w : Worker} (h : w.owned.stop < w.owned.start) :
    w.packing.1 =
      .error (.cellIndexOutOfRange (min w.owned.stop largestIndex) w.cells.length) := by
  have howned : ¬ (w.owned.start ≤ w.owned.stop ∧ w.owned.stop ≤ w.cells.length) := by omega
  rw [packing, packShare_eq, on_bind, on_liftM, ownedCells, if_neg howned]

section

variable {members : List (Task × Seat)} {n limit : Nat}

theorem packedIn_of_packs {tasks : List Task} {ws : List Worker}
    (hlen : ∀ t ∈ tasks, t.cells.length = n) (hlimit : ∀ t ∈ tasks, t.limit = limit)
    (h : Each tasks ws (Merged tasks 0)) {k : Nat} (hpack : ∀ j < k, Packs tasks j) :
    ∀ j < k, ∃ sent, packedIn ws j = some (.ok sent) := by
  intro j hj
  have hmerged := merged_roundsTo hlen hlimit h j fun i hi => hpack i (Nat.lt_trans hi hj)
  obtain ⟨t, ht, -⟩ := id (hpack j hj)
  obtain ⟨w, hw, hm⟩ := hmerged.2 j t ht
  refine ⟨t.owned.size, ?_⟩
  rw [packedIn, hw, Option.map_some, (hm.packing_eq_ok_iff ht _ _).mpr ⟨hpack j hj, rfl, rfl⟩]

/-- The first worker with a reversed share is the first that cannot pack. -/
theorem failsFirst_of_reversed (hseated : Seated members)
    (hlen : ∀ t ∈ members.map Prod.fst, t.cells.length = n)
    (hlimit : ∀ t ∈ members.map Prod.fst, t.limit = limit) {k : Nat} {t : Task}
    (ht : (members.map Prod.fst)[k]? = some t) (hreversed : t.owned.stop < t.owned.start)
    (hpack : ∀ j < k, Packs (members.map Prod.fst) j) :
    FailsFirst (freshWorkers members) k
      (.cellIndexOutOfRange (min t.owned.stop largestIndex) n) := by
  refine ⟨packedIn_of_packs hlen hlimit (merged_fresh hseated) hpack, ?_⟩
  have hmerged := merged_roundsTo hlen hlimit (merged_fresh hseated) k hpack
  obtain ⟨w, hw, hm⟩ := hmerged.2 k t ht
  have howned : w.owned.stop < w.owned.start := by rwa [hm.owned]
  rw [packedIn, hw, Option.map_some, Worker.packing_reversed howned, hm.owned, hm.cells,
    length_gridAfter hlen k ht]

end

/-! ## Checked plans

What a checked plan leaves open is only whether its shares are ordered: their ends are inside the
grid, and none is larger than the limit that all workers have.
-/

/-- A group that exchanges cells by a checked plan. -/
structure Planned (plan : Plan) (grids : List (List Cell)) (members : List (Task × Seat)) :
    Prop where
  check : plan.check = .ok ()
  small : plan.total < Count.positive32
  copies : grids.length = plan.shares.length
  length : ∀ cells ∈ grids, cells.length = plan.total
  indexed : ∀ cells ∈ grids, ∀ c ∈ cells, c.IsIndexed
  seated : Seated members
  tasks : members.map Prod.fst = plan.tasks grids

namespace Planned

variable {plan : Plan} {grids : List (List Cell)} {members : List (Task × Seat)}

theorem task (h : Planned plan grids members) : ∀ t ∈ members.map Prod.fst,
    t.cells.length = plan.total ∧ t.limit = plan.largest ∧ ∀ c ∈ t.cells, c.IsIndexed := by
  intro t ht
  rw [h.tasks] at ht
  obtain ⟨s, -, cells, hcells, rfl⟩ := Plan.exists_of_mem_tasks ht
  exact ⟨h.length cells hcells, rfl, h.indexed cells hcells⟩

theorem sameLength (h : Planned plan grids members) :
    ∀ t ∈ members.map Prod.fst, t.cells.length = plan.total := fun t ht => (h.task t ht).1

theorem sameLimit (h : Planned plan grids members) :
    ∀ t ∈ members.map Prod.fst, t.limit = plan.largest := fun t ht => (h.task t ht).2.1

theorem room (h : Planned plan grids members) :
    ∀ m ∈ members, roundBytes m.1.limit < Buffer.limit := by
  intro m hm
  have hlargest := Plan.largest_le_total h.check
  have hsmall := h.small
  unfold Count.positive32 at hsmall
  rw [h.sameLimit m.1 (List.mem_map_of_mem hm), roundBytes_eq]
  unfold Buffer.limit
  omega

theorem length_members (h : Planned plan grids members) :
    members.length = plan.shares.length := by
  have hlength := congrArg List.length h.tasks
  rwa [List.length_map, Plan.tasks, List.length_zipWith, h.copies, Nat.min_self] at hlength

theorem packs (h : Planned plan grids members) {k : Nat} {s : Share}
    (hs : plan.shares[k]? = some s) (hordered : s.range.start ≤ s.range.stop) :
    Packs (members.map Prod.fst) k := by
  obtain ⟨cells, -, ht⟩ := Plan.getElem?_tasks h.copies hs
  rw [← h.tasks] at ht
  have hmem := List.mem_of_getElem? hs
  apply packs_of_ordered h.small h.sameLength (fun t ht => (h.task t ht).2.2) ht hordered
  · exact Plan.stop_le_of_check h.check s hmem
  · exact Plan.size_le_largest hmem

theorem outcomes_of_ordered (h : Planned plan grids members)
    (hordered : ∀ s ∈ plan.shares, s.range.start ≤ s.range.stop) :
    ∃ outcomes, synchronizeGroup members = .ok outcomes ∧
      outcomes.length = plan.shares.length ∧
      ∀ o ∈ outcomes, ∃ report, o.result = .ok report := by
  have hpack : ∀ k < members.length, Packs (members.map Prod.fst) k := by
    intro k hk
    rw [h.length_members] at hk
    exact h.packs (List.getElem?_eq_getElem hk) (hordered _ (List.getElem_mem hk))
  obtain ⟨outcomes, hrun, hlength, hall⟩ :=
    outcomes_of_packs h.seated h.room h.sameLength h.sameLimit hpack
  refine ⟨outcomes, hrun, hlength.trans h.length_members, forall_outcomes hlength ?_⟩
  intro i m hm
  obtain ⟨o, ho, hresult, -⟩ := hall i m hm
  exact ⟨o, ho, _, hresult⟩

theorem outcomes_of_reversed (h : Planned plan grids members) {k : Nat} {s : Share}
    (hs : plan.shares[k]? = some s) (hreversed : s.range.stop < s.range.start)
    (hfirst : ∀ (j : Nat) (r : Share), j < k → plan.shares[j]? = some r →
      r.range.start ≤ r.range.stop) :
    ∃ outcomes, synchronizeGroup members = .ok outcomes ∧
      outcomes.length = plan.shares.length ∧
      ∀ (i : Nat) (o : Outcome Seat), outcomes[i]? = some o → o.result = .error (.error
        (if i = k then .cellIndexOutOfRange s.range.stop plan.total else .roundAborted k)) := by
  obtain ⟨cells, -, ht⟩ := Plan.getElem?_tasks h.copies hs
  rw [← h.tasks] at ht
  have hk : k < plan.shares.length := (List.getElem?_eq_some_iff.mp hs).1
  have hpack : ∀ j < k, Packs (members.map Prod.fst) j := by
    intro j hj
    have hr := List.getElem?_eq_getElem (Nat.lt_trans hj hk)
    exact h.packs hr (hfirst j _ hj hr)
  -- The workers before the first reversed share can pack, since theirs are ordered.
  have hfails := failsFirst_of_reversed h.seated h.sameLength h.sameLimit ht hreversed hpack
  -- The end of the share is reported as it is, since it lies inside the grid.
  have hstop : min (s.range.stop : Int) largestIndex = s.range.stop := by
    have hinside := Plan.stop_le_of_check h.check s (List.mem_of_getElem? hs)
    have hsmall := h.small
    unfold Count.positive32 at hsmall
    unfold largestIndex Count.positive64
    omega
  obtain ⟨outcomes, hrun, hlength, hall⟩ :=
    outcomes_of_failsFirst h.seated h.room h.sameLength h.sameLimit hfails
  refine ⟨outcomes, hrun, hlength.trans h.length_members, fun i o ho => ?_⟩
  have hi : i < members.length := by
    rw [← hlength]
    exact (List.getElem?_eq_some_iff.mp ho).1
  obtain ⟨o', ho', hresult, -⟩ := hall i _ (List.getElem?_eq_getElem hi)
  obtain rfl : o' = o := Option.some.inj (ho'.symm.trans ho)
  rw [hresult]
  dsimp only
  rw [hstop]

end Planned

/-! ## Ordered and reversed shares

A reversed share has no cells, so that a checked plan may have some. They cannot be packed, and the
first of them aborts the exchange.
-/

/-- With a checked plan all workers have a result exactly if no share is reversed. If some
are, the worker of the first one reports the end of its share, and the others that its round
was aborted. -/
theorem planned_exchange_iff_ordered {plan : Plan} {grids : List (List Cell)}
    {members : List (Task × Seat)} (h : Planned plan grids members) :
    ∃ outcomes, synchronizeGroup members = .ok outcomes ∧
      outcomes.length = plan.shares.length ∧
      ((∀ o ∈ outcomes, ∃ report, o.result = .ok report) ↔
        ∀ s ∈ plan.shares, s.range.start ≤ s.range.stop) ∧
      ∀ (k : Nat) (s : Share), plan.shares[k]? = some s → s.range.stop < s.range.start →
        (∀ (j : Nat) (r : Share), j < k → plan.shares[j]? = some r →
          r.range.start ≤ r.range.stop) →
        ∀ (i : Nat) (o : Outcome Seat), outcomes[i]? = some o → o.result = .error (.error
          (if i = k then .cellIndexOutOfRange s.range.stop plan.total else .roundAborted k)) := by
  cases hfind : plan.shares.findIdx? fun s => s.range.stop < s.range.start with
  | none =>
      have hordered : ∀ s ∈ plan.shares, s.range.start ≤ s.range.stop := by
        intro s hs
        have hnot := List.findIdx?_eq_none_iff.mp hfind s hs
        simpa using hnot
      obtain ⟨outcomes, hrun, hlength, hok⟩ := h.outcomes_of_ordered hordered
      refine ⟨outcomes, hrun, hlength, iff_of_true hok hordered, ?_⟩
      intro k s hs hreversed
      have hle := hordered s (List.mem_of_getElem? hs)
      omega
  | some k =>
      obtain ⟨hk, hat, hbefore⟩ := List.findIdx?_eq_some_iff_getElem.mp hfind
      have hs := List.getElem?_eq_getElem hk
      have hreversed := of_decide_eq_true hat
      have hfirst : ∀ (j : Nat) (r : Share), j < k → plan.shares[j]? = some r →
          r.range.start ≤ r.range.stop := by
        intro j r hj hr
        obtain ⟨hlt, rfl⟩ := List.getElem?_eq_some_iff.mp hr
        simpa using hbefore j hj
      obtain ⟨outcomes, hrun, hlength, hall⟩ :=
        h.outcomes_of_reversed hs hreversed hfirst
      have hlt : k < outcomes.length := by rwa [hlength]
      refine ⟨outcomes, hrun, hlength, iff_of_false ?_ ?_, ?_⟩
      · intro hok
        obtain ⟨report, hreport⟩ := hok _ (List.getElem_mem hlt)
        rw [hall k _ (List.getElem?_eq_getElem hlt)] at hreport
        cases hreport
      · intro hordered
        have hle := hordered _ (List.getElem_mem hk)
        omega
      · -- There is only one first reversed share.
        intro k' s' hs' hreversed' hfirst'
        rcases Nat.lt_trichotomy k' k with hlower | rfl | hhigher
        · have hle := hfirst k' s' hlower hs'
          omega
        · obtain rfl : plan.shares[k'] = s' := Option.some.inj (hs.symm.trans hs')
          exact hall
        · have hle := hfirst' k _ hhigher hs
          omega

/-- Two workers with two cells, the first of which has an empty or a reversed share. -/
def idleFirst (range : CellRange) : Plan := .ofRanges 2 [range, ⟨0, 2⟩]

def idleGroup (range : CellRange) : List (Task × Seat) :=
  seatAll ((idleFirst range).tasks [cellsOf 0 2, cellsOf 1 2])

theorem planned_idleGroup {range : CellRange} (h : (idleFirst range).check = .ok ()) :
    Planned (idleFirst range) [cellsOf 0 2, cellsOf 1 2] (idleGroup range) where
  check := h
  small := show 2 < Count.positive32 by decide
  copies := rfl
  length := show ∀ cells ∈ [cellsOf 0 2, cellsOf 1 2], cells.length = 2 by decide
  indexed := by decide +kernel
  seated := seated_seatAll _
  tasks := map_fst_seatAll _

theorem planned_exchange_iff_ordered_idle :
    (∃ outcomes, synchronizeGroup (idleGroup ⟨1, 1⟩) = .ok outcomes ∧ outcomes.length = 2 ∧
      ∀ o ∈ outcomes, ∃ report, o.result = .ok report) ∧
    ∃ outcomes, synchronizeGroup (idleGroup ⟨2, 1⟩) = .ok outcomes ∧ outcomes.length = 2 ∧
      (∀ o : Outcome Seat, outcomes[0]? = some o →
        o.result = .error (.error (.cellIndexOutOfRange 1 2))) ∧
      ∀ o : Outcome Seat, outcomes[1]? = some o →
        o.result = .error (.error (.roundAborted 0)) := by
  constructor
  · obtain ⟨outcomes, hrun, hlength, hiff, -⟩ :=
      planned_exchange_iff_ordered (planned_idleGroup (rfl : (idleFirst ⟨1, 1⟩).check = .ok ()))
    exact ⟨outcomes, hrun, hlength, hiff.mpr (by decide)⟩
  · obtain ⟨outcomes, hrun, hlength, -, hall⟩ :=
      planned_exchange_iff_ordered (planned_idleGroup (rfl : (idleFirst ⟨2, 1⟩).check = .ok ()))
    have hfirst := hall 0 _ rfl (by decide) fun j r hj => absurd hj (Nat.not_lt_zero j)
    exact ⟨outcomes, hrun, hlength, hfirst 0, hfirst 1⟩

/-- With a reversed share every worker fails, although the plan passes its check. -/
theorem checked_plan_without_result :
    ∃ outcomes, (idleFirst ⟨2, 1⟩).check = .ok () ∧
      synchronizeGroup (idleGroup ⟨2, 1⟩) = .ok outcomes ∧ outcomes.length = 2 ∧
      ∀ o ∈ outcomes, ¬ ∃ report, o.result = .ok report := by
  have hcheck : (idleFirst ⟨2, 1⟩).check = .ok () := rfl
  obtain ⟨outcomes, hrun, hlength, hall⟩ := (planned_idleGroup hcheck).outcomes_of_reversed
    (k := 0) rfl (by decide) fun j r hj => absurd hj (Nat.not_lt_zero j)
  refine ⟨outcomes, hcheck, hrun, hlength, fun o ho => ?_⟩
  obtain ⟨i, hi⟩ := List.getElem?_of_mem ho
  rintro ⟨report, hreport⟩
  rw [hall i o hi] at hreport
  cases hreport

end Exchange

end StellarWind
