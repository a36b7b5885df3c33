import StellarWind.Proofs.Plan.Balanced
import StellarWind.Proofs.Wind.CellRecord
import StellarWind.Wind.Grid

/-!
# Numbered grids

`Grid.build` succeeds on meshes that have been checked, and every cell of the grid
names its place: its own number, its domain and its number in the domain.
-/

namespace StellarWind

/-! ## Meshes

A mesh counts its cells with a check on the range, and a mesh that passes its own check is not
empty. A definition of a cell reads nothing of the cell but its indices, and keeps these.
-/

namespace Mesh

/-- The number of cells, however large. -/
def cellCount (m : Mesh) : Nat :=
  match m.system with
  | .spherical => m.columns
  | .cylindrical => m.columns * m.rows

theorem size_eq {m : Mesh} (h : m.cellCount < Count.range64) : m.size = .ok m.cellCount := by
  obtain ⟨system, _⟩ := m
  cases system with
  | spherical => rfl
  | cylindrical => exact checked_ok h

theorem eq_cellCount {m : Mesh} {n : Nat} (h : m.size = .ok n) : n = m.cellCount := by
  obtain ⟨system, _⟩ := m
  cases system with
  | spherical => exact (Except.ok.inj h).symm
  | cylindrical => exact eq_of_checked h

/-- Whether meshes pass their check can be computed. -/
theorem checked_of_isOk {meshes : List Mesh} (h : ∀ m ∈ meshes, m.check.isOk = true) :
    ∀ m ∈ meshes, m.check = .ok () :=
  fun m hm => eq_ok_of_isOk (h m hm)

/-- A mesh that passes its check is not empty. -/
theorem cellCount_pos {m : Mesh} (h : m.check = .ok ()) : 0 < m.cellCount := by
  have hproblem : m.problem? = none := by
    rw [check] at h
    split at h
    · cases h
    · assumption
  have hempty : ¬ (m.columns == 0 || (m.system == .cylindrical && m.rows == 0)) := by
    intro hempty
    rw [problem?, if_pos hempty] at hproblem
    cases hproblem
  unfold cellCount
  split <;> rename_i hs <;> simp [hs] at hempty
  · omega
  · exact Nat.mul_pos (by omega) (by omega)

theorem length_le_sum {meshes : List Mesh} (h : ∀ m ∈ meshes, m.check = .ok ()) :
    meshes.length ≤ (meshes.map cellCount).sum := by
  induction meshes with
  | nil => exact Nat.le_refl 0
  | cons m rest ih =>
      have hpos := cellCount_pos (h m List.mem_cons_self)
      have hrest := ih fun p hp => h p (List.mem_cons_of_mem m hp)
      simp only [List.length_cons, List.map_cons, List.sum_cons]
      omega

section

variable [Elementary]

theorem define_indices (m : Mesh) (n : Nat) (c : Cell) :
    (m.define n c).domain = c.domain ∧ (m.define n c).domainIndex = c.domainIndex ∧
      (m.define n c).tallyIndex = c.tallyIndex := by
  unfold define
  split <;> exact ⟨rfl, rfl, rfl⟩

theorem standing_define (m : Mesh) (n : Nat) (c : Cell) : (m.define n c).standing = .all := by
  unfold define
  split <;> rfl

/-- A definition takes nothing but the indices from what the cell was. -/
theorem define_eq_blank (m : Mesh) (n : Nat) (c : Cell) :
    m.define n c = m.define n (.blank c.domain c.domainIndex c.tallyIndex) := by
  unfold define
  split <;> rfl

end

end Mesh

namespace Grid

/-! ## Numbering

Meshes are laid out one after the other, each behind the cells of those before it. The induction is
over the meshes, with the number of the next domain and the place of its first cell.
-/

/-- A cell with the numbers of a place, among domains that are numbered from `number`. -/
structure Numbered (number : Nat) (domains : List Domain) (place : Nat) (c : Cell) : Prop where
  tally : c.tallyIndex = place
  domain : ∃ k d, domains[k]? = some d ∧ c.domain = number + k ∧ c.domainIndex < d.count ∧
    d.start + c.domainIndex = place

theorem Numbered.cons {number place : Nat} {domains : List Domain} {c : Cell} (d : Domain)
    (h : Numbered (number + 1) domains place c) : Numbered number (d :: domains) place c := by
  obtain ⟨k, e, he, hdomain, hindex⟩ := h.domain
  exact ⟨h.tally, k + 1, e, he, by omega, hindex⟩

theorem layOut_cons {m : Mesh} {rest : List Mesh} {number start : Nat} {domains : List Domain}
    {cells : List Cell} (hcheck : m.check = .ok ()) (hsize : m.cellCount < Count.range64)
    (hrest : layOut (number + 1) (start + m.cellCount) rest = .ok (domains, cells)) :
    layOut number start (m :: rest) = .ok (⟨m, start, m.cellCount⟩ :: domains,
      (List.range m.cellCount).map (fun i => .blank number i (start + i)) ++ cells) := by
  rw [layOut, hcheck]
  show (faulting m.size >>= _) = _
  rw [Mesh.size_eq hsize]
  show (layOut (number + 1) (start + m.cellCount) rest >>= _) = _
  rw [hrest]
  rfl

/-- Checked meshes are laid out cell by cell, with nothing defined. -/
theorem exists_layOut {meshes : List Mesh} (number start : Nat)
    (hcheck : ∀ m ∈ meshes, m.check = .ok ())
    (hsum : (meshes.map Mesh.cellCount).sum < Count.range64) :
    ∃ domains cells, layOut number start meshes = .ok (domains, cells) ∧
      domains.length = meshes.length ∧ cells.length = (meshes.map Mesh.cellCount).sum ∧
      ∀ (j : Nat) (c : Cell), cells[j]? = some c →
        Numbered number domains (start + j) c ∧ c.standing = .unassigned := by
  induction meshes generalizing number start with
  | nil => exact ⟨[], [], rfl, rfl, rfl, by simp⟩
  | cons m rest ih =>
      rw [List.map_cons, List.sum_cons] at hsum
      obtain ⟨domains, cells, hrest, hdomains, hcells, hall⟩ := ih (number + 1)
        (start + m.cellCount) (fun p hp => hcheck p (List.mem_cons_of_mem m hp)) (by omega)
      refine ⟨_, _, layOut_cons (hcheck m List.mem_cons_self) (by omega) hrest,
        congrArg (· + 1) hdomains, ?_, ?_⟩
      · rw [List.length_append, List.length_map, List.length_range, hcells]
        rfl
      · intro j c hj
        by_cases hlt : j < m.cellCount
        · -- A cell of the first domain.
          rw [List.getElem?_append_left (by simpa using hlt), List.getElem?_map,
            List.getElem?_range hlt] at hj
          obtain rfl := Option.some.inj hj
          exact ⟨⟨rfl, 0, _, rfl, rfl, hlt, rfl⟩, rfl⟩
        · rw [List.getElem?_append_right (by simpa using hlt), List.length_map,
            List.length_range] at hj
          obtain ⟨hnumbered, hstanding⟩ := hall _ c hj
          have hplace : start + m.cellCount + (j - m.cellCount) = start + j := by omega
          rw [hplace] at hnumbered
          exact ⟨hnumbered.cons _, hstanding⟩

/-! ### Grids of checked meshes

They can be built as long as their cells can be counted, and are numbered throughout.
-/

theorem exists_build {meshes : List Mesh} (hcheck : ∀ m ∈ meshes, m.check = .ok ())
    (hsum : (meshes.map Mesh.cellCount).sum < Count.range64) :
    ∃ g, build meshes = .ok g ∧ g.domains.length = meshes.length ∧
      g.cells.length = (meshes.map Mesh.cellCount).sum ∧
      ∀ (j : Nat) (c : Cell), g.cells[j]? = some c →
        Numbered 0 g.domains j c ∧ c.standing = .unassigned := by
  obtain ⟨domains, cells, hlay, hdomains, hcells, hall⟩ := exists_layOut 0 0 hcheck hsum
  have hbuild : build meshes =
      .ok ⟨domains, cells, (List.range cells.length).map fun n => .blank n n⟩ := by
    rw [build, hlay]
    rfl
  refine ⟨_, hbuild, hdomains, hcells, ?_⟩
  intro j c hj
  have h := hall j c hj
  rwa [Nat.zero_add] at h

theorem tallies_of_build {meshes : List Mesh} {g : Grid} (h : build meshes = .ok g) :
    g.tallies = (List.range g.cells.length).map fun n => .blank n n := by
  obtain ⟨⟨domains, cells⟩, -, h⟩ := bind_eq_ok_iff.mp h
  cases h
  rfl

/-- The numbers of a cell are below the number of cells. -/
theorem Numbered.isIndexed {domains : List Domain} {place n : Nat} {c : Cell}
    (h : Numbered 0 domains place c) (hn : n < Count.positive32) (hplace : place < n)
    (hdomains : domains.length ≤ n) : c.IsIndexed := by
  obtain ⟨k, d, hd, hdomain, -, hindex⟩ := h.domain
  have hk : k < domains.length := (List.getElem?_eq_some_iff.mp hd).1
  have htally := h.tally
  exact ⟨by omega, by omega, by omega⟩

/-- The grid of checked meshes can be sent as it is. -/
theorem exists_blank {meshes : List Mesh} (hcheck : ∀ m ∈ meshes, m.check = .ok ())
    (hn : (meshes.map Mesh.cellCount).sum < Count.positive32) :
    ∃ g, build meshes = .ok g ∧ g.cells.length = (meshes.map Mesh.cellCount).sum ∧
      (∀ c ∈ g.cells, c.IsIndexed) ∧ ∀ c ∈ g.cells, c.standing.IsProper := by
  have hrange : Count.positive32 < Count.range64 := by decide
  obtain ⟨g, hbuild, hdomains, hlength, hall⟩ := exists_build hcheck (by omega)
  refine ⟨g, hbuild, hlength, ?_, ?_⟩
  · intro c hc
    obtain ⟨j, hj⟩ := List.getElem?_of_mem hc
    have hlt : j < g.cells.length := (List.getElem?_eq_some_iff.mp hj).1
    apply (hall j c hj).1.isIndexed hn
    · rwa [← hlength]
    · -- No domain is empty, so there are no more domains than cells.
      rw [hdomains]
      exact Mesh.length_le_sum hcheck
  · intro c hc
    obtain ⟨j, hj⟩ := List.getElem?_of_mem hc
    rw [(hall j c hj).2]
    trivial

end Grid

end StellarWind
