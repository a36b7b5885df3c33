import StellarWind.Proofs.Wind.Grid

/-!
# Defining a grid in pieces

The domains of a grid lie side by side (`Tiles`), so a range falls into one part for each
domain that it meets. Defining it domain by domain comes to defining each of its cells once
(`Grid.define_eq`). What a cell becomes does not depend on what it was, and ranges may be
defined in any order.
-/

namespace StellarWind

/-! ## Domains side by side

Each domain starts where the one before it ends. So every cell of the grid is in one domain and in
no other, and it has a number there.
-/

theorem Domain.contains_range (d : Domain) (cell : Nat) :
    d.range.contains cell ↔ d.start ≤ cell ∧ cell < d.start + d.count :=
  CellRange.contains_iff d.range cell

/-- Domains that follow each other from cell `lo` up to cell `hi`, without gap or overlap. -/
def Tiles : Nat → List Domain → Nat → Prop
  | lo, [], hi => lo = hi
  | lo, d :: rest, hi => d.start = lo ∧ Tiles (lo + d.count) rest hi

namespace Tiles

variable {lo hi cell : Nat} {domains : List Domain} {d e : Domain}

theorem le (h : Tiles lo domains hi) : lo ≤ hi := by
  induction domains generalizing lo with
  | nil => exact Nat.le_of_eq h
  | cons first rest ih =>
      have hle := ih h.2
      omega

theorem le_start (h : Tiles lo domains hi) (hd : d ∈ domains) : lo ≤ d.start := by
  induction domains generalizing lo with
  | nil => cases hd
  | cons first rest ih =>
      obtain ⟨hstart, hrest⟩ := h
      rcases List.mem_cons.mp hd with rfl | hd
      · omega
      · have hle := ih hrest hd
        omega

/-- Every cell is in a domain. -/
theorem exists_contains (h : Tiles lo domains hi) (hlo : lo ≤ cell) (hhi : cell < hi) :
    ∃ d ∈ domains, d.range.contains cell := by
  induction domains generalizing lo with
  | nil =>
      have hsame : lo = hi := h
      omega
  | cons first rest ih =>
      obtain ⟨hstart, hrest⟩ := h
      by_cases hcell : cell < lo + first.count
      · refine ⟨first, List.mem_cons_self, ?_⟩
        rw [Domain.contains_range]
        omega
      · obtain ⟨d, hd, hcontains⟩ := ih hrest (by omega)
        exact ⟨d, List.mem_cons_of_mem first hd, hcontains⟩

/-- No cell is in two domains. -/
theorem eq_of_contains (h : Tiles lo domains hi) (hd : d ∈ domains) (he : e ∈ domains)
    (hcell : d.range.contains cell) (hcell' : e.range.contains cell) : d = e := by
  rw [Domain.contains_range] at hcell hcell'
  induction domains generalizing lo with
  | nil => cases hd
  | cons first rest ih =>
      obtain ⟨hstart, hrest⟩ := h
      rcases List.mem_cons.mp hd with hd | hd <;> rcases List.mem_cons.mp he with he | he
      · rw [hd, he]
      · have hle := hrest.le_start he
        rw [← hd] at hstart hle
        omega
      · have hle := hrest.le_start hd
        rw [← he] at hstart hle
        omega
      · exact ih hrest hd he

end Tiles

namespace Grid

/-! ### Domains of a grid

A grid that was built has the domains of its meshes in order, and they tile its cells.
-/

/-- Checked domains side by side, that together have `n` cells. -/
structure Laid (domains : List Domain) (n : Nat) : Prop where
  tiles : Tiles 0 domains n
  checked : ∀ d ∈ domains, d.mesh.check = .ok ()

/-- What has been laid out was checked, and lies side by side. -/
theorem tiles_layOut {meshes : List Mesh} {number start : Nat} {domains : List Domain}
    {cells : List Cell} (h : layOut number start meshes = .ok (domains, cells)) :
    Tiles start domains (start + cells.length) ∧ (∀ m ∈ meshes, m.check = .ok ()) ∧
      domains.map (fun d => (d.mesh, d.count)) = meshes.map fun m => (m, m.cellCount) := by
  induction meshes generalizing number start domains cells with
  | nil =>
      cases h
      exact ⟨rfl, by simp, rfl⟩
  | cons m rest ih =>
      rw [layOut] at h
      obtain ⟨_, hcheck, h⟩ := bind_eq_ok_iff.mp h
      obtain ⟨count, hsize, h⟩ := bind_eq_ok_iff.mp h
      obtain ⟨⟨ds, cs⟩, hrest, h⟩ := bind_eq_ok_iff.mp h
      cases h
      obtain ⟨htiles, hchecks, hmeshes⟩ := ih hrest
      have hcount := Mesh.eq_cellCount (faulting_eq_ok_iff.mp hsize)
      refine ⟨⟨rfl, ?_⟩, List.forall_mem_cons.mpr ⟨reported_eq_ok_iff.mp hcheck, hchecks⟩, ?_⟩
      · rwa [List.length_append, List.length_map, List.length_range, ← Nat.add_assoc]
      · rw [List.map_cons, List.map_cons, hmeshes, hcount]

theorem laid_of_build {meshes : List Mesh} {g : Grid} (h : build meshes = .ok g) :
    Laid g.domains g.cells.length ∧
      g.domains.map (fun d => (d.mesh, d.count)) = meshes.map fun m => (m, m.cellCount) := by
  obtain ⟨⟨domains, cells⟩, hlay, h⟩ := bind_eq_ok_iff.mp h
  cases h
  obtain ⟨htiles, hchecks, hmeshes⟩ := tiles_layOut hlay
  rw [Nat.zero_add] at htiles
  refine ⟨⟨htiles, fun d hd => ?_⟩, hmeshes⟩
  have hmem : (d.mesh, d.count) ∈ meshes.map fun m => (m, m.cellCount) := by
    rw [← hmeshes]
    exact List.mem_map_of_mem hd
  obtain ⟨m, hm, heq⟩ := List.mem_map.mp hmem
  rw [← (Prod.mk.inj heq).1]
  exact hchecks m hm

end Grid

/-! ## The cells of one domain

A domain takes its own cells out of the grid, defines a part of them and puts them back. In terms of
the grid this changes the cells that are both in the domain and in the range.
-/

/-- A change of the `count` elements from `start` on, put back between the others. -/
theorem splice_mapIdx {α : Type} (f : Nat → α → α) {xs : List α} {start count : Nat}
    (hfit : start + count ≤ xs.length) :
    xs.take start ++ ((xs.drop start).take count).mapIdx f ++ xs.drop (start + count) =
      xs.mapIdx fun n x => if start ≤ n ∧ n < start + count then f (n - start) x else x := by
  have hbefore : (xs.take start).length = start := List.length_take_of_le (by omega)
  have hown : ((xs.drop start).take count).length = count :=
    List.length_take_of_le (by rw [List.length_drop]; omega)
  apply List.ext_getElem?
  intro j
  rw [List.getElem?_append, List.length_append, List.length_mapIdx, hbefore, hown,
    List.getElem?_append, hbefore, List.getElem?_mapIdx, List.getElem?_mapIdx, List.getElem?_drop]
  by_cases hj : j < start + count
  · by_cases hstart : j < start
    · rw [if_pos hj, if_pos hstart, List.getElem?_take_of_lt hstart]
      simp [Nat.not_le.mpr hstart]
    · have hback : start + (j - start) = j := by omega
      rw [if_pos hj, if_neg hstart, List.getElem?_take_of_lt (by omega), List.getElem?_drop, hback]
      simp [Nat.le_of_not_lt hstart, hj]
  · have hback : start + count + (j - (start + count)) = j := by omega
    rw [if_neg hj, hback]
    simp [hj]

section

variable [Elementary]

theorem Mesh.defineWithin_eq {m : Mesh} {count : Nat} {range : CellRange} {cells : List Cell}
    (hordered : range.start ≤ range.stop) (hinside : range.stop ≤ count) :
    m.defineWithin count range cells =
      .ok (cells.mapIdx fun n c => if range.contains n then m.define n c else c) :=
  if_neg (by omega)

/-- A domain defines the cells that lie in it and in the range. -/
theorem Domain.define_eq {d : Domain} {cells : List Cell} (hcheck : d.mesh.check = .ok ())
    (hfit : d.start + d.count ≤ cells.length) (range : CellRange) :
    d.define range cells = .ok (cells.mapIdx fun n c =>
      if d.range.contains n ∧ range.contains n then d.mesh.define (n - d.start) c else c) := by
  have hown : ((cells.drop d.start).take d.count).length = d.count :=
    List.length_take_of_le (by rw [List.length_drop]; omega)
  unfold define
  dsimp only
  -- The domain and the range are apart, or their common part is defined.
  split
  · rename_i hapart
    have hnone (n : Nat) : ¬ (d.range.contains n ∧ range.contains n) := by
      rw [contains_range, CellRange.contains_iff]
      omega
    simp only [hnone, if_false]
    rw [List.mapIdx_eq_zipIdx_map]
    simp
  · rename_i hmeets
    have hpart (n : Nat) : d.range.contains n ∧ range.contains n ↔
        (d.start ≤ n ∧ n < d.start + d.count) ∧
          CellRange.contains ⟨max range.start d.start - d.start,
            min range.stop (d.start + d.count) - d.start⟩ (n - d.start) := by
      rw [contains_range, CellRange.contains_iff, CellRange.contains_iff]
      dsimp only
      omega
    rw [hcheck]
    show (d.mesh.defineWithin _ _ _ >>= _) = _
    rw [hown, Nat.min_self, Mesh.defineWithin_eq (by dsimp only; omega) (by dsimp only; omega)]
    show Except.ok _ = _
    rw [splice_mapIdx _ hfit]
    congr 2
    funext n c
    by_cases hin : d.start ≤ n ∧ n < d.start + d.count <;> simp [hpart, hin]

namespace Grid

/-! ## The cells of a grid

The domains are worked through in order, and each leaves the cells of the others alone. So a cell is
changed by its own domain only.
-/

/-- Define a cell by its place in the domain that it lies in. -/
def defineAt (domains : List Domain) (n : Nat) (c : Cell) : Cell :=
  match domains.find? (·.range.contains n) with
  | some d => d.mesh.define (n - d.start) c
  | none => c

/-- The cells with those of a range defined. -/
def definedOn (g : Grid) (range : CellRange) : List Cell :=
  g.cells.mapIdx fun n c => if range.contains n then defineAt g.domains n c else c

theorem defineAt_indices (domains : List Domain) (n : Nat) (c : Cell) :
    (defineAt domains n c).domain = c.domain ∧
      (defineAt domains n c).domainIndex = c.domainIndex ∧
      (defineAt domains n c).tallyIndex = c.tallyIndex := by
  unfold defineAt
  split
  · exact Mesh.define_indices _ _ c
  · exact ⟨rfl, rfl, rfl⟩

theorem defineAt_of_mem {lo hi n : Nat} {domains : List Domain} {d : Domain}
    (htiles : Tiles lo domains hi) (hd : d ∈ domains) (hcell : d.range.contains n) (c : Cell) :
    defineAt domains n c = d.mesh.define (n - d.start) c := by
  unfold defineAt
  split
  · rename_i e he
    have hcell' : e.range.contains n := by simpa using List.find?_some he
    rw [htiles.eq_of_contains (List.mem_of_find?_eq_some he) hd hcell' hcell]
  · rename_i hnone
    exact absurd hcell (List.find?_eq_none.mp hnone d hd)

/-- To define a cell again changes nothing. -/
theorem defineAt_defineAt (domains : List Domain) (n : Nat) (c : Cell) :
    defineAt domains n (defineAt domains n c) = defineAt domains n c := by
  unfold defineAt
  split
  · rename_i d _
    obtain ⟨hdomain, hindex, htally⟩ := d.mesh.define_indices (n - d.start) c
    rw [Mesh.define_eq_blank, hdomain, hindex, htally, ← Mesh.define_eq_blank]
  · rfl

/-! ### Defining a range

Each domain defines the cells that it shares with the range. The domains tile the cells, so that
each cell is defined by one domain and by no other.
-/

/-- Domains side by side define the cells of a range one by one. -/
theorem defineDomains_eq {lo hi : Nat} {domains : List Domain} {cells : List Cell}
    (htiles : Tiles lo domains hi) (hcheck : ∀ d ∈ domains, d.mesh.check = .ok ())
    (hfit : hi ≤ cells.length) (range : CellRange) :
    defineDomains range domains cells = (.ok (), cells.mapIdx fun n c =>
      if range.contains n then defineAt domains n c else c) := by
  induction domains generalizing lo cells with
  | nil => simp [defineDomains, defineAt, List.mapIdx_eq_zipIdx_map]
  | cons d rest ih =>
      rw [List.forall_mem_cons] at hcheck
      obtain ⟨rfl, hrest⟩ := htiles
      have hle := hrest.le
      rw [defineDomains, Domain.define_eq hcheck.1 (by omega)]
      dsimp only
      rw [ih hrest hcheck.2 (by rwa [List.length_mapIdx]), List.mapIdx_mapIdx]
      congr 2
      funext n c
      dsimp only [Function.comp]
      by_cases hrange : range.contains n
      · by_cases hcell : d.range.contains n
        · -- The domains behind this one start behind the cell.
          have hnone : rest.find? (·.range.contains n) = none := by
            rw [List.find?_eq_none]
            intro e he hcontains
            have hbehind := hrest.le_start he
            rw [Domain.contains_range] at hcell hcontains
            omega
          simp [defineAt, hrange, hcell, hnone]
        · simp [defineAt, hrange, hcell]
      · simp [hrange]

theorem defining_eq {g : Grid} {range : CellRange} (hlaid : Laid g.domains g.cells.length)
    (h : range.stop ≤ g.cells.length) : g.defining range = (.ok (), g.definedOn range) := by
  rw [defining, if_neg (Nat.not_lt.mpr h),
    defineDomains_eq hlaid.tiles hlaid.checked (Nat.le_refl _)]
  rfl

theorem define_eq {g : Grid} {range : CellRange} (hlaid : Laid g.domains g.cells.length)
    (h : range.stop ≤ g.cells.length) :
    g.define range = .ok { g with cells := g.definedOn range } := by
  rw [define, defining_eq hlaid h]

@[simp] theorem length_definedOn (g : Grid) (range : CellRange) :
    (g.definedOn range).length = g.cells.length := List.length_mapIdx

theorem getElem?_definedOn (g : Grid) (range : CellRange) (j : Nat) :
    (g.definedOn range)[j]? =
      g.cells[j]?.map fun c => if range.contains j then defineAt g.domains j c else c :=
  List.getElem?_mapIdx

/-- A property of all cells that definitions keep. -/
theorem forall_definedOn {P : Cell → Prop} {g : Grid} {range : CellRange}
    (hcells : ∀ c ∈ g.cells, P c)
    (hdefine : ∀ (m : Mesh) (n : Nat) (c : Cell), P c → P (m.define n c)) :
    ∀ c ∈ g.definedOn range, P c := by
  intro c hc
  obtain ⟨j, hj⟩ := List.getElem?_of_mem hc
  rw [getElem?_definedOn] at hj
  obtain ⟨b, hb, rfl⟩ := Option.map_eq_some_iff.mp hj
  have hP := hcells b (List.mem_of_getElem? hb)
  split
  · unfold defineAt
    split
    · exact hdefine _ _ b hP
    · exact hP
  · exact hP

theorem isIndexed_definedOn {g : Grid} (h : ∀ c ∈ g.cells, c.IsIndexed) (range : CellRange) :
    ∀ c ∈ g.definedOn range, c.IsIndexed := by
  refine forall_definedOn h fun m n c hc => ?_
  obtain ⟨hdomain, hindex, htally⟩ := m.define_indices n c
  unfold Cell.IsIndexed
  rw [hdomain, hindex, htally]
  exact hc

theorem isProper_definedOn {g : Grid} (h : ∀ c ∈ g.cells, c.standing.IsProper)
    (range : CellRange) : ∀ c ∈ g.definedOn range, c.standing.IsProper := by
  refine forall_definedOn h fun m n c _ => ?_
  rw [m.standing_define n c]
  trivial

/-! ## Ranges one after another

To define a cell twice is to define it once. Of a list of ranges it matters which cells they meet,
and neither their order nor how often they meet a cell.
-/

/-- The grid after a range has been defined, or could not be. -/
def afterDefining (g : Grid) (range : CellRange) : Grid :=
  { g with cells := (g.defining range).2 }

theorem defining_past_end {g : Grid} {range : CellRange} (h : g.cells.length < range.stop) :
    g.defining range = (.error (.rangeOutOfBounds range g.cells.length), g.cells) :=
  if_pos h

theorem afterDefining_eq {g : Grid} (hlaid : Laid g.domains g.cells.length) (range : CellRange) :
    (g.afterDefining range).cells =
      if range.stop ≤ g.cells.length then g.definedOn range else g.cells := by
  split
  · rename_i h
    rw [afterDefining, defining_eq hlaid h]
  · rename_i h
    rw [afterDefining, defining_past_end (Nat.lt_of_not_le h)]

theorem Laid.afterDefining {g : Grid} (hlaid : Laid g.domains g.cells.length)
    (range : CellRange) :
    Laid (g.afterDefining range).domains (g.afterDefining range).cells.length ∧
      (g.afterDefining range).cells.length = g.cells.length := by
  have hlength : (g.afterDefining range).cells.length = g.cells.length := by
    rw [afterDefining_eq hlaid]
    split
    · exact g.length_definedOn range
    · rfl
  exact ⟨by rwa [hlength], hlength⟩

/-- After many ranges a cell is as it was or defined once, however often ranges met it. -/
theorem getElem?_foldl_afterDefining {g : Grid} (hlaid : Laid g.domains g.cells.length)
    (ranges : List CellRange) (j : Nat) :
    (ranges.foldl afterDefining g).cells[j]? = g.cells[j]?.map fun c =>
      if ∃ r ∈ ranges, r.stop ≤ g.cells.length ∧ r.contains j then defineAt g.domains j c
      else c := by
  induction ranges generalizing g with
  | nil => simp
  | cons r rest ih =>
      obtain ⟨hlaid', hlength⟩ := hlaid.afterDefining r
      have hdomains : (g.afterDefining r).domains = g.domains := rfl
      rw [List.foldl_cons, ih hlaid', hlength, hdomains, afterDefining_eq hlaid]
      by_cases hstop : r.stop ≤ g.cells.length
      · rw [if_pos hstop, getElem?_definedOn, Option.map_map]
        congr 1
        funext c
        -- The cell may be defined now, later, or both.
        by_cases hnow : r.contains j <;>
          by_cases hlater : ∃ r ∈ rest, r.stop ≤ g.cells.length ∧ r.contains j <;>
          simp [hstop, hnow, hlater, defineAt_defineAt]
      · simp [hstop]

/-! ### Ranges that cover

A cell is the same whenever and however often it is defined, and so the order of the ranges does not
matter.
-/

/-- The cells of a grid after those of a range have been written. A written cell keeps its
indices, and has all else from the mesh of its domain and its number there. -/
structure Rewritten (g : Grid) (range : CellRange) (cells : List Cell) : Prop where
  length : cells.length = g.cells.length
  outside : ∀ j, ¬ range.contains j → cells[j]? = g.cells[j]?
  inside : ∀ (j : Nat) (c : Cell), g.cells[j]? = some c → range.contains j →
    ∃ d ∈ g.domains, d.range.contains j ∧ ∃ c', cells[j]? = some c' ∧
      c' = d.mesh.define (j - d.start) (.blank c.domain c.domainIndex c.tallyIndex) ∧
      c'.domain = c.domain ∧ c'.domainIndex = c.domainIndex ∧ c'.tallyIndex = c.tallyIndex

theorem rewritten_definedOn {g : Grid} (hlaid : Laid g.domains g.cells.length)
    (range : CellRange) : g.Rewritten range (g.definedOn range) where
  length := g.length_definedOn range
  outside := by
    intro j hj
    simp [getElem?_definedOn, hj]
  inside := by
    intro j c hc hj
    have hlt : j < g.cells.length := (List.getElem?_eq_some_iff.mp hc).1
    obtain ⟨d, hd, hcell⟩ := hlaid.tiles.exists_contains (Nat.zero_le j) hlt
    refine ⟨d, hd, hcell, d.mesh.define (j - d.start) c, ?_, Mesh.define_eq_blank _ _ c,
      Mesh.define_indices _ _ c⟩
    rw [getElem?_definedOn, hc, Option.map_some, if_pos hj, defineAt_of_mem hlaid.tiles hd hcell]

/-- Ranges that meet every cell leave the cells that one definition of all of them leaves. -/
theorem foldl_afterDefining_eq {g : Grid} (hlaid : Laid g.domains g.cells.length)
    {ranges : List CellRange}
    (hcover : ∀ j < g.cells.length, ∃ r ∈ ranges, r.stop ≤ g.cells.length ∧ r.contains j) :
    (ranges.foldl afterDefining g).cells = g.definedOn ⟨0, g.cells.length⟩ := by
  apply List.ext_getElem?
  intro j
  rw [getElem?_foldl_afterDefining hlaid, getElem?_definedOn]
  cases hc : g.cells[j]? with
  | none => rfl
  | some c =>
      have hlt : j < g.cells.length := (List.getElem?_eq_some_iff.mp hc).1
      have hall : CellRange.contains ⟨0, g.cells.length⟩ j :=
        (CellRange.contains_iff _ j).mpr ⟨Nat.zero_le j, hlt⟩
      rw [Option.map_some, Option.map_some, if_pos (hcover j hlt), if_pos hall]

/-- In a grid with the domains of a new one, whatever its cells hold, a range is refused
exactly if it ends behind the last cell, and a refused one changes nothing. One that is not
refused writes its cells and no others. Ranges that together meet all cells leave the same
cells in every order, those of defining them all at once. -/
theorem define_in_pieces {meshes : List Mesh} {blank g : Grid} (hbuild : build meshes = .ok blank)
    (hdomains : g.domains = blank.domains) (hlength : g.cells.length = blank.cells.length) :
    (g.domains.map (·.mesh) = meshes ∧ Tiles 0 g.domains g.cells.length) ∧
      (∀ range : CellRange,
        (g.cells.length < range.stop →
          g.defining range = (.error (.rangeOutOfBounds range g.cells.length), g.cells)) ∧
        (range.stop ≤ g.cells.length →
          ∃ cells, g.defining range = (.ok (), cells) ∧ g.Rewritten range cells)) ∧
      ∀ ranges : List CellRange,
        (∀ j < g.cells.length, ∃ r ∈ ranges, r.stop ≤ g.cells.length ∧ r.contains j) →
        ∃ whole, g.defineAll = .ok whole ∧
          (ranges.foldl afterDefining g).cells = whole.cells := by
  obtain ⟨hlaid, hmeshes⟩ := laid_of_build hbuild
  rw [← hdomains, ← hlength] at hlaid
  refine ⟨⟨?_, hlaid.tiles⟩, fun range => ⟨defining_past_end, fun hstop => ?_⟩,
    fun ranges hcover => ?_⟩
  · have hfirst := congrArg (List.map Prod.fst) hmeshes
    rw [List.map_map, List.map_map] at hfirst
    rw [hdomains]
    exact hfirst.trans (List.map_id meshes)
  · exact ⟨_, defining_eq hlaid hstop, rewritten_definedOn hlaid range⟩
  · exact ⟨_, define_eq hlaid (Nat.le_refl _), foldl_afterDefining_eq hlaid hcover⟩

end Grid

end

namespace Grid

/-- Two shells and a column of three rings. -/
def shellsAndRings : List Mesh :=
  [.shells 2 1e9 1e10, { Mesh.default with columns := 1, rows := 3 }]

/-- The second range meets both domains; the others run past the end, are reversed or overlap. -/
theorem define_in_pieces_shellsAndRings :
    ∃ blank whole, build shellsAndRings = .ok blank ∧ blank.cells.length = 5 ∧
      blank.defining ⟨3, 9⟩ = (.error (.rangeOutOfBounds ⟨3, 9⟩ 5), blank.cells) ∧
      blank.defineAll = .ok whole ∧
      ([⟨3, 9⟩, ⟨1, 5⟩, ⟨4, 2⟩, ⟨0, 3⟩].foldl afterDefining blank).cells = whole.cells := by
  have hcheck : ∀ m ∈ shellsAndRings, m.check = .ok () := Mesh.checked_of_isOk (by decide +kernel)
  obtain ⟨blank, hbuild, -, hlength, -⟩ := exists_build hcheck (by decide)
  have hfive : blank.cells.length = 5 := hlength
  obtain ⟨-, hranges, hall⟩ := define_in_pieces hbuild rfl rfl
  have hpast := (hranges ⟨3, 9⟩).1 (by rw [hfive]; decide)
  rw [hfive] at hpast
  obtain ⟨whole, hwhole, hcells⟩ := hall [⟨3, 9⟩, ⟨1, 5⟩, ⟨4, 2⟩, ⟨0, 3⟩] (by rw [hfive]; decide)
  exact ⟨blank, whole, hbuild, hfive, hpast, hwhole, hcells⟩

end Grid

end StellarWind
