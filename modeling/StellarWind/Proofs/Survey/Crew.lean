import Mathlib.Algebra.BigOperators.Group.List.Basic
import StellarWind.Proofs.Exchange.Convergence
import StellarWind.Proofs.Wind.Defining
import StellarWind.Survey.Site

/-!
# A crew has the whole grid

Workers that each define their share of the cells, and then exchange all shares,
have cell by cell what one worker has that defines all cells. This holds for every
plan whose shares cover the grid, and so for even shares and any number of
workers.
-/

namespace StellarWind

namespace Survey

open Exchange

/-! ## What a crew brings to its exchange

Each worker has defined the cells of its share and no others. The buffers are made for the largest
share, and they are small enough because the cells can be indexed.
-/

theorem roundBytes_largest {plan : Plan} {n : Nat} (h : plan.Covers n)
    (hn : n < Count.positive32) : roundBytes plan.largest < Buffer.limit := by
  have hlargest : plan.largest ≤ n := by
    refine Plan.largest_le_iff.mpr fun share hshare => ?_
    exact Nat.le_trans (Nat.sub_le _ _) (h.inside share hshare)
  unfold Count.positive32 at hn
  unfold Buffer.limit
  rw [roundBytes_eq]
  omega

/-- The exchange of a crew is that of a new group. -/
theorem exchange_eq {limit : Nat} {crew : List Member} (hne : crew ≠ [])
    {outcomes : List (Outcome Seat)}
    (hrun : synchronizeGroup (seatAll (crew.map fun m => ⟨m.grid.cells, m.owned, limit⟩)) =
      .ok outcomes) :
    exchange limit crew = .ok (List.zipWith
      (fun m o => (o.result, { m with grid := { m.grid with cells := o.cells } }))
      crew outcomes) := by
  have hgroup : Seat.group crew.length =
      .ok ((List.range crew.length).map fun rank => ⟨rank, crew.length, .empty⟩) :=
    if_neg fun hzero => hne (List.length_eq_zero_iff.mp hzero)
  rw [seatAll, List.length_map] at hrun
  rw [exchange, hgroup]
  show (synchronizeGroup _ >>= _) = _
  rw [hrun]
  rfl

section

variable [Elementary] {blank : Grid} {plan : Plan}

/-- A member of a crew that has defined its share. -/
def defined (blank : Grid) (share : Share) : Member :=
  ⟨{ blank with cells := blank.definedOn share.range }, share.range⟩

/-- What the members of a crew bring to their exchange. -/
def tasksOf (blank : Grid) (plan : Plan) : List Task :=
  plan.shares.map fun share => ⟨blank.definedOn share.range, share.range, plan.largest⟩

theorem mapM_define (hlaid : Grid.Laid blank.domains blank.cells.length)
    (h : plan.Covers blank.cells.length) :
    plan.shares.mapM (fun share => Member.define ⟨blank, share.range⟩) =
      .ok (plan.shares.map (defined blank)) := by
  refine mapM_eq_ok fun share hshare => ?_
  rw [Member.define]
  dsimp only
  rw [Grid.define_eq hlaid (h.inside share hshare)]
  rfl

/-! ## The exchange of a crew

A crew is a new group with one task for each share, and the tasks fit together, so that the
exchange of such a group can be applied.
-/

/-- What a crew has after its exchange. -/
theorem crew_eq (hlaid : Grid.Laid blank.domains blank.cells.length)
    (h : plan.Covers blank.cells.length) {outcomes : List (Outcome Seat)}
    (hrun : synchronizeGroup (seatAll (tasksOf blank plan)) = .ok outcomes) (whole : Grid) :
    Site.crew ⟨blank, whole, plan⟩ = .ok (List.zipWith
      (fun share o => (o.result, ⟨{ blank with cells := o.cells }, share.range⟩))
      plan.shares outcomes) := by
  have htasks : (plan.shares.map (defined blank)).map (fun m =>
      (⟨m.grid.cells, m.owned, plan.largest⟩ : Task)) = tasksOf blank plan := List.map_map
  have hne : plan.shares.map (defined blank) ≠ [] := fun hnil =>
    h.shared (List.map_eq_nil_iff.mp hnil)
  rw [← htasks] at hrun
  rw [Site.crew]
  dsimp only
  rw [mapM_define hlaid h]
  show onExchange (exchange plan.largest (plan.shares.map (defined blank))) = _
  rw [exchange_eq hne hrun, List.zipWith_map_left]
  rfl

theorem fits_tasksOf (h : plan.Covers blank.cells.length)
    (hindexed : ∀ c ∈ blank.cells, c.IsIndexed) :
    ∀ t ∈ tasksOf blank plan, t.Fits blank.cells.length plan.largest :=
  List.forall_mem_map.mpr fun share hshare => {
    sameLength := blank.length_definedOn share.range
    sameLimit := rfl
    ordered := h.ordered share hshare
    inside := h.inside share hshare
    small := Plan.size_le_largest hshare
    indexed := Grid.isIndexed_definedOn hindexed share.range }

/-! ## Every worker has the whole grid

After the exchange a cell is what its last owner had. Owners have it defined, and a cell is defined
from its index and its mesh, so that it does not matter which of them was the last.
-/

/-- A worker has defined the cells of its share as they are in the whole grid. -/
theorem getElem?_definedOn_whole {range : CellRange} {j : Nat} (h : range.contains j) :
    (blank.definedOn range)[j]? = (blank.definedOn ⟨0, blank.cells.length⟩)[j]? := by
  rw [Grid.getElem?_definedOn, Grid.getElem?_definedOn]
  cases hj : blank.cells[j]? with
  | none => rfl
  | some c =>
      have hlt : j < blank.cells.length := (List.getElem?_eq_some_iff.mp hj).1
      have hwhole : CellRange.contains ⟨0, blank.cells.length⟩ j :=
        (CellRange.contains_iff _ j).mpr ⟨Nat.zero_le j, hlt⟩
      rw [Option.map_some, Option.map_some, if_pos h, if_pos hwhole]

theorem gridAfter_tasksOf (h : plan.Covers blank.cells.length)
    (hproper : ∀ c ∈ blank.cells, c.standing.IsProper) {i : Nat} {t : Task}
    (ht : (tasksOf blank plan)[i]? = some t) :
    gridAfter (tasksOf blank plan) (tasksOf blank plan).length i =
      blank.definedOn ⟨0, blank.cells.length⟩ := by
  have hlen : ∀ t ∈ tasksOf blank plan, t.cells.length = blank.cells.length :=
    List.forall_mem_map.mpr fun share _ => blank.length_definedOn share.range
  have hproper' : ∀ t ∈ tasksOf blank plan, ∀ c ∈ t.cells, c.standing.IsProper :=
    List.forall_mem_map.mpr fun share _ => Grid.isProper_definedOn hproper share.range
  apply List.ext_getElem?
  intro j
  rw [getElem?_gridAfter hlen hproper' _ ht, List.take_length]
  by_cases hj : j < blank.cells.length
  · -- Whoever wins the cell owns it, and every owner has defined it in the same way.
    obtain ⟨share, hshare, hcontains⟩ := h.covered j hj
    have howner : ∃ t ∈ tasksOf blank plan, t.owned.contains j :=
      ⟨_, List.mem_map_of_mem hshare, hcontains⟩
    obtain ⟨hmem, howns⟩ := winner_owns howner t
    obtain ⟨other, -, hother⟩ := List.mem_map.mp hmem
    rw [← hother] at howns ⊢
    exact getElem?_definedOn_whole howns
  · have hmem := winner_mem (List.mem_of_getElem? ht) (tasksOf blank plan).length j
    rw [List.take_length] at hmem
    rw [List.getElem?_eq_none (by rw [hlen _ hmem]; omega),
      List.getElem?_eq_none (by rw [Grid.length_definedOn]; omega)]

/-- A share and those of all others are all shares. -/
theorem size_add_others {i : Nat} {share : Share} (hs : plan.shares[i]? = some share) :
    share.range.size + (((tasksOf blank plan).eraseIdx i).map (·.owned.size)).sum =
      (plan.shares.map (·.range.size)).sum := by
  have hsizes : (tasksOf blank plan).map (·.owned.size) = plan.shares.map (·.range.size) := by
    rw [tasksOf, List.map_map]
    rfl
  obtain ⟨hi, rfl⟩ := List.getElem?_eq_some_iff.mp hs
  have hi' : i < (plan.shares.map (·.range.size)).length := by rwa [List.length_map]
  have hsum := List.add_sum_eraseIdx hi' fun _ _ => AddCommute.all _ _
  rw [List.getElem_map] at hsum
  rw [← List.eraseIdx_map, hsizes, hsum]

/-- A crew whose shares cover the grid has the whole grid on every worker, and every
worker has seen all shares. -/
theorem exists_crew (hlaid : Grid.Laid blank.domains blank.cells.length)
    (h : plan.Covers blank.cells.length)
    (hn : blank.cells.length < Count.positive32) (hindexed : ∀ c ∈ blank.cells, c.IsIndexed)
    (hproper : ∀ c ∈ blank.cells, c.standing.IsProper) (whole : Grid) :
    ∃ crew, Site.crew ⟨blank, whole, plan⟩ = .ok crew ∧ crew.length = plan.shares.length ∧
      ∀ p ∈ crew, p.2.grid.cells = blank.definedOn ⟨0, blank.cells.length⟩ ∧
        ∃ report, p.1 = .ok report ∧
          report.sent + report.received = (plan.shares.map (·.range.size)).sum := by
  obtain ⟨outcomes, hrun, hlength, hall⟩ :=
    outcomes_seatAll hn (roundBytes_largest h hn) (fits_tasksOf h hindexed)
  refine ⟨_, crew_eq hlaid h hrun whole, by simp [hlength, tasksOf], ?_⟩
  intro p hp
  obtain ⟨i, hi⟩ := List.getElem?_of_mem hp
  rw [List.getElem?_zipWith] at hi
  -- Member `i` has the outcome of the task that share `i` makes.
  cases hs : plan.shares[i]? with
  | none =>
      rw [hs] at hi
      cases hi
  | some share =>
      have ht : (tasksOf blank plan)[i]? =
          some ⟨blank.definedOn share.range, share.range, plan.largest⟩ := by
        rw [tasksOf, List.getElem?_map, hs]
        rfl
      obtain ⟨o, ho, hresult, hcells⟩ := hall i _ ht
      rw [hs, ho] at hi
      obtain rfl := Option.some.inj hi
      exact ⟨hcells.trans (gridAfter_tasksOf h hproper ht), _, hresult, size_add_others hs⟩

/-! ## Even shares

Even shares cover the grid, and their sizes add up to it.
-/

/-- However many workers share the cells of checked meshes evenly, each of them has
in the end the cells that one worker has that defines them all. The even plan is the
balanced one, unless there are more workers than shares can be listed. -/
theorem crew_eq_whole {meshes : List Mesh} {workers : Nat} (hworkers : 0 < workers)
    (hcheck : ∀ m ∈ meshes, m.check = .ok ())
    (hn : (meshes.map Mesh.cellCount).sum < Count.positive32) :
    ∃ blank whole plan crew, Grid.build meshes = .ok blank ∧ blank.defineAll = .ok whole ∧
      whole.cells.length = (meshes.map Mesh.cellCount).sum ∧
      Plan.balanced whole.cells.length workers =
        (if workers < Plan.shareLimit then .ok plan else .error (.fault .outOfMemory)) ∧
      plan = .evenPlan whole.cells.length workers ∧
      Site.crew ⟨blank, whole, plan⟩ = .ok crew ∧ crew.length = workers ∧
      ∀ p ∈ crew, p.2.grid.cells = whole.cells ∧
        ∃ report, p.1 = .ok report ∧ report.sent + report.received = whole.cells.length := by
  have hrange : Count.positive32 + 1 < Count.range64 := by decide
  obtain ⟨blank, hbuild, hlength, hindexed, hproper⟩ := Grid.exists_blank hcheck hn
  have hplan : Plan.balanced blank.cells.length workers = _ :=
    Plan.balanced_eq_ite hworkers (by omega) (.inl (by omega))
  have hlaid := (Grid.laid_of_build hbuild).1
  obtain ⟨crew, hcrew, hworkers', hcells⟩ := exists_crew hlaid (Plan.covers_evenPlan hworkers)
    (by omega) hindexed hproper { blank with cells := blank.definedOn ⟨0, blank.cells.length⟩ }
  -- The plan is made for the whole grid, which has as many cells as the blank one.
  have hwhole := blank.length_definedOn ⟨0, blank.cells.length⟩
  refine ⟨blank, _, _, crew, hbuild, Grid.define_eq hlaid (Nat.le_refl _), ?_, ?_, ?_, hcrew,
    ?_, ?_⟩
  · rw [hwhole, hlength]
  · rwa [hwhole]
  · rw [hwhole]
  · rw [hworkers', Plan.evenPlan, List.length_map, List.length_range]
  · intro p hp
    obtain ⟨hp', report, hreport, hsum⟩ := hcells p hp
    refine ⟨hp', report, hreport, ?_⟩
    rw [hsum, hwhole, Plan.sum_size_evenPlan hworkers]

end

/-- A shell and a column of three rings. The first of three workers has a share of both. -/
def shellAndColumn : List Mesh :=
  [.shells 1 1e9 1e10, { Mesh.default with columns := 1, rows := 3 }]

theorem crew_eq_whole_shellAndColumn :
    ∃ blank whole plan crew, Grid.build shellAndColumn = .ok blank ∧
      blank.defineAll = .ok whole ∧ whole.cells.length = 4 ∧
      Plan.balanced whole.cells.length 3 = .ok plan ∧
      Site.crew ⟨blank, whole, plan⟩ = .ok crew ∧ crew.length = 3 ∧
      ∀ p ∈ crew, p.2.grid.cells = whole.cells ∧
        ∃ report, p.1 = .ok report ∧ report.sent + report.received = whole.cells.length := by
  have hcheck : ∀ m ∈ shellAndColumn, m.check = .ok () := Mesh.checked_of_isOk (by decide +kernel)
  obtain ⟨blank, whole, plan, crew, hbuild, hwhole, hlength, hplan, -, hcrew⟩ :=
    crew_eq_whole (by decide : 0 < 3) hcheck (by decide)
  exact ⟨blank, whole, plan, crew, hbuild, hwhole, hlength, hplan, hcrew⟩

end Survey

end StellarWind
