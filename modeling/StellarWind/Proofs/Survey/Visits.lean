import StellarWind.Proofs.Survey.Crew
import StellarWind.Proofs.Survey.Sampling
import StellarWind.Proofs.Spectrum.Edges

/-!
# The visits of a survey

On a site whose cells are shared evenly, every worker has the whole grid after the
exchange and then samples in its own cells only (`Site.Even.visits`). Put together in
the order of ranks, the shares are the tallies of all cells, each cell once and in its
place (`accounted_visits`).
-/

namespace StellarWind

theorem CellRange.count_cells (range : CellRange) (j : Nat) :
    range.cells.count j = if range.contains j then 1 else 0 := by
  have hnodup : range.cells.Nodup := List.nodup_range'
  by_cases h : range.contains j
  · rw [if_pos h]
    exact List.count_eq_one_of_mem hnodup ((range.mem_cells_iff j).mpr h)
  · rw [if_neg h]
    exact List.count_eq_zero_of_not_mem (mt (range.mem_cells_iff j).mp h)

/-! ## Spectra that fit into tables

Both recipes end in a spectrum of checked edges, and there are never more bands than slots.
-/

namespace Spectrum

theorem size_build [Elementary] {r : Recipe} {s : Spectrum} (h : r.build = .ok s) :
    s.size ≤ bandLimit := by
  cases r with
  | edges values minFraction => exact size_ofEdges (reported_eq_ok_iff.mp h)
  | logUniform low high count => exact size_ofEdges (ofEdges_of_logUniform h).2

/-- The spectrum of settings fits into a table. -/
theorem exists_table [Elementary] {s : Settings} {spectrum : Spectrum}
    (h : s.spectrum = .ok spectrum) :
    ∃ table, BandTable.ofSpectrum spectrum = .ok table ∧ table.count ≤ bandLimit := by
  have hsize := size_build (mapError_eq_ok_iff.mp h)
  exact ⟨_, if_neg (Nat.not_lt.mpr hsize), hsize⟩

end Spectrum

namespace Survey

/-! ## The tallies of all shares

The share of a worker starts where that of the worker before it ends. So the shares, put one behind
the other, have the tally of a cell at the index of the cell. That is an induction over the workers
with the start of the next share as the offset (`flatMap_pieces`).
-/

/-- What a worker of a site that is shared evenly has when its visit is over. -/
structure Visit.Done (site : Site) (n workers photons : Nat) (table : BandTable) (i : Nat)
    (v : Visit) : Prop where
  rank : v.rank = i
  reported : ∃ report, v.report = .ok report
  owned : v.member.owned = Plan.evenRange n workers i
  cells : v.member.grid.cells = site.whole.cells
  length : v.member.grid.tallies.length = n
  tally : ∀ (j : Nat) (t : Tally), v.member.grid.tallies[j]? = some t →
    t.numbers = (j, j) ∧ t.bands = table ∧
      t.segments = if v.member.owned.contains j then photons else 0
  below : ∀ t ∈ v.member.grid.tallies, t.Below (photons + 1)

/-- Pieces that follow each other from `start 0` on, one behind the other. -/
theorem flatMap_pieces {α β : Type} (f : α → List β) (P : Nat → β → Prop) (start : Nat → Nat)
    {xs : List α}
    (h : ∀ (i : Nat) (x : α), xs[i]? = some x → start i + (f x).length = start (i + 1) ∧
      ∀ (j : Nat) (b : β), (f x)[j]? = some b → P (start i + j) b) :
    start 0 + (xs.flatMap f).length = start xs.length ∧
      ∀ (j : Nat) (b : β), (xs.flatMap f)[j]? = some b → P (start 0 + j) b := by
  induction xs generalizing start with
  | nil => exact ⟨rfl, fun j b hb => by simp at hb⟩
  | cons x xs ih =>
      obtain ⟨hlength, hx⟩ : start 0 + (f x).length = start 1 ∧ _ := h 0 x rfl
      obtain ⟨hrest, hxs⟩ := ih (fun i => start (i + 1)) fun i y hy => h (i + 1) y hy
      rw [List.flatMap_cons]
      constructor
      · rw [List.length_append, ← Nat.add_assoc, hlength]
        exact hrest
      · intro j b hb
        by_cases hj : j < (f x).length
        · rw [List.getElem?_append_left hj] at hb
          exact hx j b hb
        · rw [List.getElem?_append_right (Nat.not_lt.mp hj)] at hb
          have hplace : start 1 + (j - (f x).length) = start 0 + j := by omega
          rw [← hplace]
          exact hxs _ b hb

/-- The tallies of `n` cells in the order of their cells, each with the same bands and the same
number of segments. -/
structure Accounted (n photons : Nat) (table : BandTable) (tallies : List Tally) : Prop where
  length : tallies.length = n
  tally : ∀ (j : Nat) (t : Tally), tallies[j]? = some t →
    t.index = j ∧ t.cell = j ∧ t.bands = table ∧ t.segments = photons

section

variable {site : Site} {n workers : Nat} {table : BandTable}

/-- The tallies of a worker's share, each in its place. -/
theorem Visit.Done.share {photons i : Nat} {v : Visit}
    (h : v.Done site n workers photons table i) (hi : i < workers) :
    Plan.evenStart n workers i + v.member.tallies.length = Plan.evenStart n workers (i + 1) ∧
      ∀ (j : Nat) (t : Tally), v.member.tallies[j]? = some t →
        t.index = Plan.evenStart n workers i + j ∧ t.cell = Plan.evenStart n workers i + j ∧
          t.bands = table ∧ t.segments = photons := by
  have hstart : Plan.evenStart n workers i ≤ Plan.evenStart n workers (i + 1) :=
    Plan.evenStart_mono (Nat.le_succ i)
  have hstop : Plan.evenStart n workers (i + 1) ≤ n := Plan.evenStart_le hi (by omega)
  have hsize : (Plan.evenRange n workers i).size =
      Plan.evenStart n workers (i + 1) - Plan.evenStart n workers i := rfl
  rw [Member.tallies, h.owned]
  constructor
  · rw [List.length_take, List.length_drop, h.length, hsize]
    dsimp only [Plan.evenRange]
    omega
  · intro j t ht
    rw [List.getElem?_take] at ht
    split at ht
    · next hj =>
        rw [List.getElem?_drop] at ht
        -- Tally `j` of the share belongs to a cell of the share, so that it has all its segments.
        obtain ⟨hnumbers, hbands, hsegments⟩ := h.tally (Plan.evenStart n workers i + j) t ht
        have hcontains : v.member.owned.contains (Plan.evenStart n workers i + j) := by
          rw [h.owned, CellRange.contains_iff]
          dsimp only [Plan.evenRange]
          omega
        rw [if_pos hcontains] at hsegments
        exact ⟨congrArg Prod.fst hnumbers, congrArg Prod.snd hnumbers, hbands, hsegments⟩
    · cases ht

/-- The shares of all workers account for every cell, once and in its place. -/
theorem accounted_visits {photons : Nat} {visits : List Visit} (hworkers : 0 < workers)
    (hlength : visits.length = workers)
    (hdone : ∀ (i : Nat) (v : Visit), visits[i]? = some v →
      v.Done site n workers photons table i) :
    Accounted n photons table (visits.flatMap (·.member.tallies)) := by
  have hpieces := flatMap_pieces (fun v : Visit => v.member.tallies)
    (fun j t => t.index = j ∧ t.cell = j ∧ t.bands = table ∧ t.segments = photons)
    (Plan.evenStart n workers) fun i v hv =>
      (hdone i v hv).share (hlength ▸ (List.getElem?_eq_some_iff.mp hv).1)
  rw [Plan.evenStart_zero, Nat.zero_add, hlength, Plan.evenStart_workers hworkers] at hpieces
  refine ⟨hpieces.1, fun j t ht => ?_⟩
  have h := hpieces.2 j t ht
  rwa [Nat.zero_add] at h

end

/-- Members take nothing but cells from an exchange. -/
theorem exists_of_exchange {limit : Nat} {crew : List Member}
    {arrived : List (Except (Abort ExchangeError) Exchange.Report × Member)}
    (h : exchange limit crew = .ok arrived) {i : Nat}
    {p : Except (Abort ExchangeError) Exchange.Report × Member} (hp : arrived[i]? = some p) :
    ∃ m, crew[i]? = some m ∧ p.2 = { m with grid := { m.grid with cells := p.2.grid.cells } } := by
  obtain ⟨seats, -, h⟩ := bind_eq_ok_iff.mp h
  obtain ⟨outcomes, -, h⟩ := bind_eq_ok_iff.mp h
  cases h
  rw [List.getElem?_zipWith] at hp
  cases hm : crew[i]? with
  | none => simp [hm] at hp
  | some m =>
      cases ho : outcomes[i]? with
      | none => simp [hm, ho] at hp
      | some o =>
          rw [hm, ho] at hp
          cases hp
          exact ⟨m, rfl, rfl⟩

section

variable [Elementary]

/-! ## Sites shared evenly

All that is used of a site later, as it is built from one checked mesh. There is only one reason
for such a site not to be built.
-/

/-- A site of `n` cells that are shared evenly, as it is before any work. -/
structure Site.Even (site : Site) (n workers : Nat) : Prop where
  staffed : 0 < workers
  small : n < Count.positive32
  laid : Grid.Laid site.blank.domains n
  length : site.blank.cells.length = n
  tallies : site.blank.tallies = (List.range n).map fun j => .blank j j
  indexed : ∀ c ∈ site.blank.cells, c.IsIndexed
  proper : ∀ c ∈ site.blank.cells, c.standing.IsProper
  whole : site.whole.cells = site.blank.definedOn ⟨0, n⟩
  plan : site.plan = .evenPlan n workers

/-- The cells of a checked mesh are shared evenly, unless there are more workers than shares can
be listed. -/
theorem Site.exists_build {m : Mesh} {workers : Nat} (hworkers : 0 < workers)
    (hcheck : m.check = .ok ()) (hn : m.cellCount < Count.positive32) :
    ∃ site, Site.Even site m.cellCount workers ∧ Site.build [m] workers =
      if workers < Plan.shareLimit then .ok site else .error (.fault .outOfMemory) := by
  have hmeshes : ∀ p ∈ [m], p.check = .ok () := by simpa using hcheck
  have hsum : ([m].map Mesh.cellCount).sum = m.cellCount := Nat.add_zero _
  have hlarge : Count.positive32 + 1 < Plan.ownerLimit ∧ Plan.ownerLimit < Count.range64 := by
    decide
  obtain ⟨blank, hbuild, hlength, hindexed, hproper⟩ :=
    Grid.exists_blank hmeshes (by rw [hsum]; exact hn)
  rw [hsum] at hlength
  have hlaid := (Grid.laid_of_build hbuild).1
  let whole : Grid := { blank with cells := blank.definedOn ⟨0, m.cellCount⟩ }
  have hwhole : blank.defineAll = .ok whole := by
    rw [Grid.defineAll, Grid.define_eq hlaid (Nat.le_refl _), hlength]
  have hplan : Plan.balanced whole.cells.length workers = if workers < Plan.shareLimit
      then .ok (.evenPlan m.cellCount workers) else .error (.fault .outOfMemory) := by
    rw [Grid.length_definedOn, hlength]
    exact Plan.balanced_eq_ite hworkers (by omega) (.inl (by omega))
  refine ⟨⟨blank, whole, .evenPlan m.cellCount workers⟩, ⟨hworkers, hn, hlength ▸ hlaid,
    hlength, ?_, hindexed, hproper, rfl, rfl⟩, ?_⟩
  · rw [← hlength]
    exact Grid.tallies_of_build hbuild
  · -- The steps of the building in turn, of which only the listing of the shares can fail.
    rw [Site.build, hbuild]
    show (onMesh (reported blank.defineAll) >>= _) = _
    rw [hwhole]
    show (onExchange (Plan.balanced whole.cells.length workers) >>= _) = _
    rw [hplan]
    split
    · show (onExchange (Plan.check _) >>= _) = _
      rw [Plan.check_evenPlan hworkers (by omega)]
      rfl
    · rfl

/-! ## The crew of a site

That the crew has the whole grid is known from its exchange. Here it is said about each worker with
its rank and its share.
-/

/-- Every worker of an even site has the whole grid, and its share. -/
theorem Site.Even.crew {site : Site} {n workers : Nat} (h : site.Even n workers) :
    ∃ crew, site.crew = .ok crew ∧ crew.length = workers ∧
      ∀ (i : Nat) (p : Except (Abort ExchangeError) Exchange.Report × Member),
        crew[i]? = some p → (∃ report, p.1 = .ok report) ∧ p.2 =
          ⟨{ site.blank with cells := site.whole.cells }, Plan.evenRange n workers i⟩ := by
  obtain ⟨blank, whole, plan⟩ := site
  obtain ⟨hworkers, hsmall, hlaid, hlength, -, hindexed, hproper, hwhole, hplan⟩ := h
  dsimp only at *
  subst hplan hlength
  obtain ⟨crew, hcrew, hcount, hall⟩ :=
    exists_crew hlaid (Plan.covers_evenPlan hworkers) hsmall hindexed hproper whole
  refine ⟨crew, hcrew, ?_, fun i p hp => ?_⟩
  · simpa [Plan.evenPlan] using hcount
  · obtain ⟨hcells, report, hreport, -⟩ := hall p (List.mem_of_getElem? hp)
    -- The cells are known from the crew, and which share it is from the exchange.
    have hexchange : exchange (Plan.evenPlan blank.cells.length workers).largest
        ((Plan.evenPlan blank.cells.length workers).shares.map (defined blank)) = .ok crew := by
      rw [Site.crew, mapM_define hlaid (Plan.covers_evenPlan hworkers)] at hcrew
      exact mapError_eq_ok_iff.mp hcrew
    obtain ⟨m, hm, hp'⟩ := exists_of_exchange hexchange hp
    have hi : i < workers := by
      have hlt := (List.getElem?_eq_some_iff.mp hp).1
      rw [hcount] at hlt
      simpa [Plan.evenPlan] using hlt
    rw [Plan.evenPlan, List.map_map, List.getElem?_map, List.getElem?_range hi] at hm
    obtain rfl := Option.some.inj hm
    refine ⟨⟨report, hreport⟩, ?_⟩
    rw [hp', hcells, hwhole]
    rfl

/-! ## The work of a member

A member gives the bands to all its tallies and then samples in its share. The tallies were blank
before, so that all they have counted is known afterwards.
-/

/-- A grid whose tallies have a table of bands. -/
def banded (g : Grid) (table : BandTable) : Grid :=
  { g with tallies := g.tallies.map fun t => { t with bands := table } }

theorem work_eq {m : Member} {spectrum : Spectrum} {table : BandTable}
    (htable : BandTable.ofSpectrum spectrum = .ok table) (photons : Nat) (s : Sampler ChaCha) :
    m.work (some spectrum) photons s =
      match (banded m.grid table).sampleCells photons m.owned.cells s with
      | (.ok (), grid, _) => .ok { m with grid }
      | (.error fault, _, _) => .error fault := by
  have hbands : m.grid.withBands spectrum = .ok (banded m.grid table) := by
    rw [Grid.withBands, Spectrum.install, Spectrum.installing, htable]
    rfl
  rw [Member.work]
  dsimp only
  rw [hbands]
  rfl

/-- Nothing has been counted before the visits. -/
theorem Site.Even.below {site : Site} {n workers : Nat} (h : site.Even n workers)
    {table : BandTable} (hcount : table.count ≤ bandLimit) (cells : List Cell) :
    ∀ t ∈ (banded { site.blank with cells } table).tallies, t.Below 1 := by
  intro t ht
  obtain ⟨u, hu, rfl⟩ := List.mem_map.mp ht
  dsimp only at hu
  rw [h.tallies] at hu
  obtain ⟨j, -, rfl⟩ := List.mem_map.mp hu
  exact Tally.below_blank j j hcount

/-- A worker that samples in a banded copy of the whole grid is done. -/
theorem Site.Even.done {site : Site} {n workers : Nat} (h : site.Even n workers)
    {photons i : Nat} {table : BandTable} (hcount : table.count ≤ bandLimit)
    {report : Exchange.Report} {grid : Grid}
    (hsampled : Grid.Sampled photons (Plan.evenRange n workers i).cells
      (banded { site.blank with cells := site.whole.cells } table) grid) :
    Visit.Done site n workers photons table i
      ⟨i, ⟨grid, Plan.evenRange n workers i⟩, .ok report⟩ := by
  have hlength : grid.tallies.length = n := by
    rw [hsampled.length, banded, List.length_map, h.tallies, List.length_map, List.length_range]
  -- Every tally was blank before and is filled as often as its cell is in the share.
  have hfilled (j : Nat) (t : Tally) (ht : grid.tallies[j]? = some t) :
      Tally.Filled (photons * (Plan.evenRange n workers i).cells.count j)
        { Tally.blank j j with bands := table } t := by
    have hj : j < n := hlength ▸ (List.getElem?_eq_some_iff.mp ht).1
    have hblank : (banded { site.blank with cells := site.whole.cells } table).tallies[j]? =
        some { Tally.blank j j with bands := table } := by
      rw [banded, List.getElem?_map]
      dsimp only
      rw [h.tallies, List.getElem?_map, List.getElem?_range hj]
      rfl
    obtain ⟨t', ht', hfilled⟩ := hsampled.tally j _ hblank
    obtain rfl := Option.some.inj (ht.symm.trans ht')
    exact hfilled
  refine ⟨rfl, ⟨report, rfl⟩, rfl, hsampled.cells, hlength, fun j t ht => ?_, fun t ht => ?_⟩
  · have hj := hfilled j t ht
    refine ⟨hj.numbers, hj.bands, ?_⟩
    rw [hj.segments, CellRange.count_cells]
    dsimp only
    split <;> simp [Tally.blank]
  · obtain ⟨j, hj⟩ := List.getElem?_of_mem ht
    have hbelow := (hfilled j t hj).below 1 (Tally.below_blank j j hcount)
    rw [CellRange.count_cells] at hbelow
    refine hbelow.mono ?_
    split <;> omega

/-! ## All visits

The visits are a loop over the crew that ends at the first fault. Each of them works on a copy of
the same grid, with a share and a sampler that depend on the rank.
-/

variable {site : Site} {n workers : Nat} {s : Settings} {spectrum : Spectrum} {table : BandTable}

/-- The visits are the samplings of the members of the crew, in the order of ranks. -/
theorem Site.Even.visits_eq (h : site.Even n workers) (s : Settings)
    (htable : BandTable.ofSpectrum spectrum = .ok table) :
    ∃ arrived : List Visit, arrived.length = workers ∧
      site.visits s spectrum = faulting (arrived.mapM fun v => v.sample s spectrum) ∧
      ∀ (i : Nat) (v : Visit), arrived[i]? = some v → ∃ report, v.sample s spectrum =
        match (banded { site.blank with cells := site.whole.cells } table).sampleCells
          s.photonsPerCell (Plan.evenRange n workers i).cells
          (samplerOf s.seed i s.freqMin s.freqMax) with
        | (.ok (), grid, _) => .ok ⟨i, ⟨grid, Plan.evenRange n workers i⟩, .ok report⟩
        | (.error fault, _, _) => .error fault := by
  obtain ⟨crew, hcrew, hcount, hall⟩ := h.crew
  refine ⟨crew.zipIdx.map fun p => ⟨p.2, p.1.2, p.1.1⟩,
    by simpa using hcount, ?_, fun i v hv => ?_⟩
  · rw [Site.visits, hcrew]
    rfl
  · -- Visit `i` is that of member `i`, which has the whole grid and its share.
    rw [List.getElem?_map, List.getElem?_zipIdx] at hv
    cases hp : crew[i]? with
    | none => simp [hp] at hv
    | some p =>
        obtain ⟨result, member⟩ := p
        obtain ⟨⟨report, hreport⟩, hmember⟩ := hall i _ hp
        dsimp only at hreport hmember
        subst hreport hmember
        rw [hp] at hv
        simp only [Option.map_some, Nat.zero_add, Option.some.injEq] at hv
        subst hv
        refine ⟨report, ?_⟩
        rw [Visit.sample]
        dsimp only
        rw [work_eq htable]
        rcases (banded { site.blank with cells := site.whole.cells } table).sampleCells
          s.photonsPerCell (Plan.evenRange n workers i).cells
          (samplerOf s.seed i s.freqMin s.freqMax) with ⟨fault | u, grid, s'⟩ <;> rfl

/-- When the visits are over, every worker is done. -/
theorem Site.Even.visits (h : site.Even n workers)
    (htable : BandTable.ofSpectrum spectrum = .ok table) (hcount : table.count ≤ bandLimit)
    {visits : List Visit}
    (hvisits : site.visits s spectrum = .ok visits) : visits.length = workers ∧
      ∀ (i : Nat) (v : Visit), visits[i]? = some v →
        v.Done site n workers s.photonsPerCell table i := by
  obtain ⟨arrived, hstaff, heq, hall⟩ := h.visits_eq s htable
  rw [heq] at hvisits
  obtain ⟨hlength, hsamples⟩ := getElem?_of_mapM (faulting_eq_ok_iff.mp hvisits)
  refine ⟨hlength.trans hstaff, fun i v hv => ?_⟩
  obtain ⟨u, hu, hsample⟩ := hsamples i v hv
  obtain ⟨report, hreport⟩ := hall i u hu
  rw [hreport] at hsample
  split at hsample
  · next grid _ hcells =>
      obtain rfl := Except.ok.inj hsample
      exact h.done hcount (Grid.sampled_of_sampleCells
        (fun t ht => (h.below hcount _ t ht).mono (by decide)) hcells)
  · cases hsample

/-- Nothing but a fault keeps the workers from their visits. -/
theorem Site.Even.visits_error (h : site.Even n workers)
    (htable : BandTable.ofSpectrum spectrum = .ok table) {a : Abort SiteError}
    (ha : site.visits s spectrum = .error a) : ∃ fault, a = .fault fault := by
  obtain ⟨arrived, -, heq, -⟩ := h.visits_eq s htable
  rw [heq] at ha
  cases hsamples : arrived.mapM fun v => v.sample s spectrum with
  | error fault =>
      rw [hsamples] at ha
      exact ⟨fault, (Except.error.inj ha).symm⟩
  | ok visits =>
      rw [hsamples] at ha
      cases ha

/-- The visits succeed if there is nothing to sample or the frequencies are a range, and if the
segments of all cells can be counted. -/
theorem Site.Even.exists_visits (h : site.Even n workers)
    (htable : BandTable.ofSpectrum spectrum = .ok table) (hcount : table.count ≤ bandLimit)
    (hroom : s.photonsPerCell * n < Count.range64)
    (hs : s.photonsPerCell = 0 ∨
      Draw.isRange false (Elementary.log s.freqMin) (Elementary.log s.freqMax) = true) :
    ∃ visits, site.visits s spectrum = .ok visits := by
  obtain ⟨arrived, hlength, heq, hall⟩ := h.visits_eq s htable
  have hsamples : ∀ v ∈ arrived, ∃ u, v.sample s spectrum = .ok u := by
    intro v hv
    obtain ⟨i, hi⟩ := List.getElem?_of_mem hv
    obtain ⟨report, hreport⟩ := hall i v hi
    have hrank : i < workers := hlength ▸ (List.getElem?_eq_some_iff.mp hi).1
    have hstop : Plan.evenStart n workers (i + 1) ≤ n := Plan.evenStart_le hrank h.staffed
    -- The cells of the share are cells of the grid, and each has its tally.
    have hcells : ∀ c ∈ (Plan.evenRange n workers i).cells, c < n := by
      intro c hc
      rw [CellRange.cells, List.mem_range'_1, CellRange.size, Plan.evenRange] at hc
      dsimp only at hc
      omega
    have hshare : 1 + s.photonsPerCell * (Plan.evenRange n workers i).cells.length ≤
        Count.range64 := by
      have hsize : (Plan.evenRange n workers i).cells.length ≤ n := by
        rw [CellRange.cells, List.length_range', CellRange.size, Plan.evenRange]
        dsimp only
        omega
      have := Nat.mul_le_mul_left s.photonsPerCell hsize
      omega
    obtain ⟨grid, s', hsampled⟩ := Grid.exists_sampleCells
      (g := banded { site.blank with cells := site.whole.cells } table)
      (s := samplerOf s.seed i s.freqMin s.freqMax) (hs.imp id .inr)
      (fun c hc => by simpa [banded, h.whole, h.length, h.tallies] using hcells c hc)
      (h.below hcount _) hshare
    rw [hreport, hsampled]
    exact ⟨_, rfl⟩
  obtain ⟨visits, hvisits⟩ := exists_mapM hsamples
  exact ⟨visits, heq.trans (faulting_eq_ok_iff.mpr hvisits)⟩

end

end Survey

end StellarWind
