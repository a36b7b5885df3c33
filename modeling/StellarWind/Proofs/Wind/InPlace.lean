import StellarWind.Proofs.Tally.Recording
import StellarWind.Proofs.Wind.Defining

/-!
# Grids with every number in its place

The cells and tallies of a grid carry the numbers of their places (`Grid.InPlace`). A new
grid is like this, and definitions and records keep it so.
-/

namespace StellarWind

/-! ## Numbers of tallies

Recording changes what a tally has counted and not which cell it belongs to.
-/

/-- The numbers of a tally: its own and that of its cell. -/
def Tally.numbers (t : Tally) : Nat × Nat := (t.index, t.cell)

theorem Tally.numbers_record [Elementary] [Addition] (t : Tally) (system : CoordSystem)
    (s : Segment) : (t.record system s).2.numbers = t.numbers :=
  Prod.ext (t.keeps_record (system, s)).index (t.keeps_record (system, s)).cell

theorem map_modify_of_eq {α β : Type} {f : α → α} {g : α → β} (h : ∀ a, g (f a) = g a)
    (xs : List α) (i : Nat) : (xs.modify i f).map g = xs.map g := by
  apply List.ext_getElem?
  intro j
  rw [List.getElem?_map, List.getElem?_map, List.getElem?_modify]
  cases xs[j]? with
  | none => rfl
  | some a =>
      by_cases hij : i = j
      · simp [hij, h]
      · simp [hij]

namespace Grid

/-! ## Numbers of a grid

The invariant names the domains and the number of cells, which never change, so that it can be
compared between grids that hold different cells.
-/

/-- A grid of `n` cells in which the cells and tallies carry the numbers of their places. -/
structure InPlace (domains : List Domain) (n : Nat) (g : Grid) : Prop where
  laid : Laid domains n
  sameDomains : g.domains = domains
  length : g.cells.length = n
  cells : ∀ (j : Nat) (c : Cell), g.cells[j]? = some c → Numbered 0 domains j c
  tallies : g.tallies.map Tally.numbers = (List.range n).map fun j => (j, j)

namespace InPlace

variable {domains : List Domain} {n : Nat} {g : Grid}

theorem withCells (h : InPlace domains n g) {cells : List Cell} (hlength : cells.length = n)
    (hcells : ∀ (j : Nat) (c : Cell), cells[j]? = some c → Numbered 0 domains j c) :
    InPlace domains n { g with cells } :=
  ⟨h.laid, h.sameDomains, hlength, hcells, h.tallies⟩

theorem withTallies (h : InPlace domains n g) {tallies : List Tally}
    (htallies : tallies.map Tally.numbers = g.tallies.map Tally.numbers) :
    InPlace domains n { g with tallies } :=
  ⟨h.laid, h.sameDomains, h.length, h.cells, htallies.trans h.tallies⟩

theorem definedOn [Elementary] (h : InPlace domains n g) (range : CellRange) :
    InPlace domains n { g with cells := g.definedOn range } := by
  refine h.withCells ((g.length_definedOn range).trans h.length) fun j c hj => ?_
  rw [getElem?_definedOn] at hj
  obtain ⟨b, hb, rfl⟩ := Option.map_eq_some_iff.mp hj
  have hnumbered := h.cells j b hb
  split
  · -- A definition writes everything in a cell but its numbers.
    obtain ⟨hdomain, hindex, htally⟩ := defineAt_indices g.domains j b
    refine ⟨htally.trans hnumbered.tally, ?_⟩
    rw [hdomain, hindex]
    exact hnumbered.domain
  · exact hnumbered

/-- A range that cannot be defined is refused before any cell is. -/
theorem afterDefining [Elementary] (h : InPlace domains n g) (range : CellRange) :
    InPlace domains n (g.afterDefining range) := by
  have hlaid : Laid g.domains g.cells.length := by
    rw [h.sameDomains, h.length]
    exact h.laid
  by_cases hstop : range.stop ≤ g.cells.length
  · rw [Grid.afterDefining, defining_eq hlaid hstop]
    exact h.definedOn range
  · rw [Grid.afterDefining, defining_past_end (Nat.lt_of_not_le hstop)]
    exact h

theorem tally (h : InPlace domains n g) {j : Nat} {t : Tally} (ht : g.tallies[j]? = some t) :
    t.index = j ∧ t.cell = j := by
  have hnumbers : (g.tallies.map Tally.numbers)[j]? = some t.numbers := by
    rw [List.getElem?_map, ht]
    rfl
  have hj : j < n := by
    have hlt := (List.getElem?_eq_some_iff.mp hnumbers).1
    rwa [h.tallies, List.length_map, List.length_range] at hlt
  rw [h.tallies, List.getElem?_map, List.getElem?_range hj] at hnumbers
  obtain ⟨hindex, hcell⟩ := Prod.mk.inj (Option.some.inj hnumbers)
  exact ⟨hindex.symm, hcell.symm⟩

/-- The coordinate system of a cell is that of the domain that the cell lies in. -/
theorem systemOf_eq (h : InPlace domains n g) (htiles : Tiles 0 domains n) {j : Nat} {c : Cell}
    (hj : g.cells[j]? = some c) {d : Domain} (hd : d ∈ domains) (hcell : d.range.contains j) :
    g.systemOf c = d.mesh.system := by
  obtain ⟨k, e, he, hdomain, hindex, hplace⟩ := (h.cells j c hj).domain
  have hcell' : e.range.contains j := by
    rw [Domain.contains_range]
    omega
  have hsame := htiles.eq_of_contains hd (List.mem_of_getElem? he) hcell hcell'
  rw [Nat.zero_add] at hdomain
  rw [systemOf, h.sameDomains, hdomain, he, hsame]

end InPlace

theorem inPlace_build {meshes : List Mesh} (hcheck : ∀ m ∈ meshes, m.check = .ok ())
    (hsum : (meshes.map Mesh.cellCount).sum < Count.range64) :
    ∃ g, build meshes = .ok g ∧
      InPlace g.domains ((meshes.map Mesh.cellCount).sum) g ∧
      Tiles 0 g.domains ((meshes.map Mesh.cellCount).sum) ∧
      g.domains.map (fun d => (d.mesh, d.count)) = meshes.map fun m => (m, m.cellCount) := by
  obtain ⟨g, hbuild, -, hlength, hall⟩ := exists_build hcheck hsum
  obtain ⟨hlaid, hmeshes⟩ := laid_of_build hbuild
  rw [hlength] at hlaid
  refine ⟨g, hbuild, ⟨hlaid, rfl, hlength, fun j c hj => (hall j c hj).1, ?_⟩, hlaid.tiles, hmeshes⟩
  rw [tallies_of_build hbuild, List.map_map, hlength]
  rfl

end Grid

end StellarWind
