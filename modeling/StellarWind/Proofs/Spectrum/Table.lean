import Mathlib.Data.List.FinRange
import StellarWind.Proofs.Spectrum.Edges
import StellarWind.Spectrum.Table

/-!
# Frequencies between edges

Admitted edges cut the frequencies above the first edge and up to the last one into
intervals, and each such frequency lies in one of them (`Between`). The table of a spectrum
has a slot for each interval, so it matches a frequency with this one interval only.
-/

namespace StellarWind

theorem withinEdges_iff {lower upper freq : Float} :
    withinEdges lower upper freq ↔ lower < freq ∧ freq ≤ upper := by
  rw [withinEdges, Bool.and_eq_true, decide_eq_true_eq, decide_eq_true_eq]

namespace Spectrum

/-- A frequency lies above an edge and not above the next one. -/
def Between (edges : List Float) (freq : Float) (i : Nat) : Prop :=
  ∃ lower upper, edges[i]? = some lower ∧ edges[i + 1]? = some upper ∧ lower < freq ∧ freq ≤ upper

section

variable {edges : List Float} {freq first last : Float}

theorem between_iff {i : Nat} {lower upper : Float} (hlower : edges[i]? = some lower)
    (hupper : edges[i + 1]? = some upper) :
    Between edges freq i ↔ withinEdges lower upper freq := by
  rw [withinEdges_iff]
  constructor
  · rintro ⟨x, y, hx, hy, hlt, hle⟩
    cases hlower.symm.trans hx
    cases hupper.symm.trans hy
    exact ⟨hlt, hle⟩
  · rintro ⟨hlt, hle⟩
    exact ⟨lower, upper, hlower, hupper, hlt, hle⟩

/-! ## The order of the edges

Each edge is above the one before it, and so above all before it.
-/

theorem Admits.isNaN_eq_false (h : Admits edges) {i : Nat} {x : Float} (hx : edges[i]? = some x) :
    x.isNaN = false :=
  Double.isNaN_of_isFinite (h.edge x (List.mem_of_getElem? hx)).1

/-- Edges increase over any distance. -/
theorem Admits.le (h : Admits edges) {i j : Nat} {x y : Float} (hij : i ≤ j)
    (hx : edges[i]? = some x) (hy : edges[j]? = some y) : x ≤ y := by
  obtain rfl | hlt := Nat.eq_or_lt_of_le hij
  · obtain rfl : x = y := Option.some.inj (hx.symm.trans hy)
    exact Double.le_refl (h.isNaN_eq_false hx)
  · obtain ⟨hi, rfl⟩ := List.getElem?_eq_some_iff.mp hx
    obtain ⟨hj, rfl⟩ := List.getElem?_eq_some_iff.mp hy
    have hpairwise : edges.Pairwise (· < ·) := h.increasing.pairwise
    exact Double.le_of_lt (List.pairwise_iff_getElem.mp hpairwise i j hi hj hlt)

/-! ## The interval of a frequency

Two intervals have no frequency in common, because an interval takes its upper edge and not its
lower one. The search for the interval of a frequency goes down from an edge that is not below it.
-/

theorem Between.le_of_between (h : Admits edges) {i j : Nat} (hi : Between edges freq i)
    (hj : Between edges freq j) : i ≤ j := by
  obtain ⟨lower, -, hlower, -, hlt, -⟩ := hi
  obtain ⟨-, upper, -, hupper, -, hle⟩ := hj
  -- Otherwise the upper edge of `j` is not above the lower edge of `i`.
  refine Nat.le_of_not_lt fun hji => ?_
  exact Double.lt_irrefl lower
    (Double.lt_of_lt_of_le hlt (Double.le_trans hle (h.le hji hupper hlower)))

/-- A frequency lies in one interval at most. -/
theorem Between.eq (h : Admits edges) {i j : Nat} (hi : Between edges freq i)
    (hj : Between edges freq j) : i = j :=
  Nat.le_antisymm (hi.le_of_between h hj) (hj.le_of_between h hi)

theorem Between.within (h : Admits edges) (hfirst : edges.head? = some first)
    (hlast : edges.getLast? = some last) {i : Nat} (hi : Between edges freq i) :
    first < freq ∧ freq ≤ last := by
  obtain ⟨lower, upper, hlower, hupper, hlt, hle⟩ := hi
  rw [List.head?_eq_getElem?] at hfirst
  rw [List.getLast?_eq_getElem?] at hlast
  obtain ⟨hlength, -⟩ := List.getElem?_eq_some_iff.mp hupper
  exact ⟨Double.lt_of_le_of_lt (h.le (Nat.zero_le i) hfirst hlower) hlt,
    Double.le_trans hle (h.le (by omega) hupper hlast)⟩

/-- A frequency above the first edge that is not above some edge lies in an interval. -/
theorem exists_between_of_le (h : Admits edges) (hfirst : edges.head? = some first)
    (hlt : first < freq) {k : Nat} {x : Float} (hx : edges[k]? = some x) (hle : freq ≤ x) :
    ∃ i, Between edges freq i := by
  induction k generalizing x with
  | zero =>
      rw [← List.head?_eq_getElem?, hfirst] at hx
      cases hx
      exact absurd hle (Double.not_le_of_lt hlt)
  | succ k ih =>
      obtain ⟨hk, -⟩ := List.getElem?_eq_some_iff.mp hx
      have hbefore : edges[k]? = some edges[k] := List.getElem?_eq_getElem _
      -- The edge before is not below the frequency either, or the interval is found.
      by_cases hbelow : freq ≤ edges[k]
      · exact ih hbefore hbelow
      · refine ⟨k, _, x, hbefore, hx, ?_, hle⟩
        exact (Double.not_le (Double.isNaN_right_of_lt hlt) (h.isNaN_eq_false hbefore)).mp hbelow

theorem exists_between_iff (h : Admits edges) (hfirst : edges.head? = some first)
    (hlast : edges.getLast? = some last) :
    (∃ i, Between edges freq i) ↔ first < freq ∧ freq ≤ last := by
  constructor
  · rintro ⟨i, hi⟩
    exact hi.within h hfirst hlast
  · rintro ⟨hlt, hle⟩
    rw [List.getLast?_eq_getElem?] at hlast
    exact exists_between_of_le h hfirst hlt hlast hle

theorem Admits.exists_ends (h : Admits edges) :
    ∃ first last, edges.head? = some first ∧ edges.getLast? = some last := by
  have hpos : edges ≠ [] := by
    rintro rfl
    exact absurd h.enough (by decide)
  exact ⟨_, _, List.head?_eq_some_head hpos, List.getLast?_eq_some_getLast hpos⟩

end

end Spectrum

namespace BandTable

open Spectrum

/-- The table has a slot in use for each interval between adjoining edges. -/
structure Holds (t : BandTable) (edges : List Float) : Prop where
  count : t.count = edges.length - 1
  fit : t.count ≤ bandLimit
  holds : ∀ (freq : Float) (i : Fin bandLimit), t.holds freq i ↔ Between edges freq i

theorem holds_ofEdges {count : Nat} {edges : List (Float × Float)} {i : Fin bandLimit}
    {lower upper : Float} (hi : i.val < count) (h : edges[i.val]? = some (lower, upper))
    (freq : Float) : (ofEdges count edges).holds freq i = withinEdges lower upper freq := by
  simp [holds, ofEdges, hi, h]

theorem exists_holds {edges : List Float} {minFraction : Float} {s : Spectrum}
    (h : Spectrum.ofEdges edges minFraction = .ok s) :
    ∃ table, ofSpectrum s = .ok table ∧ table.Holds edges := by
  have hadjoins := adjoins_of_ofEdges h
  have hsize : s.size = edges.length - 1 := hadjoins.size
  refine ⟨_, if_neg (Nat.not_lt.mpr (size_ofEdges h)), hsize, size_ofEdges h, ?_⟩
  intro freq i
  by_cases hi : i.val < s.size
  · -- The slot has the edges of the band that the spectrum has in this place.
    obtain ⟨b, hb⟩ : ∃ b, s.bands[i.val]? = some b := ⟨_, List.getElem?_eq_getElem hi⟩
    obtain ⟨hlower, hupper, -⟩ := hadjoins.band i b hb
    rw [holds_ofEdges hi (by rw [List.getElem?_map, hb]; rfl), between_iff hlower hupper]
  · rw [holds, Bool.and_eq_true, decide_eq_true_eq]
    constructor
    · rintro ⟨hused, -⟩
      exact absurd hused hi
    · rintro ⟨-, upper, -, hupper, -⟩
      obtain ⟨hlength, -⟩ := List.getElem?_eq_some_iff.mp hupper
      omega

/-! ## Matching

The slots of a table are tried one by one. At most one of them holds the frequency, and there is
one if the frequency lies between the outer edges.
-/

section

variable {t : BandTable} {edges : List Float} {freq : Float}

theorem mem_matching (h : t.Holds edges) {i : Fin bandLimit} :
    i ∈ t.matching freq ↔ Between edges freq i := by
  rw [matching, List.mem_filter, h.holds]
  exact and_iff_right (List.mem_finRange i)

/-- A frequency matches the interval that it lies in, and no other. -/
theorem Holds.matching_eq_singleton (h : t.Holds edges) (hedges : Admits edges) {i : Nat}
    (hi : Between edges freq i) : ∃ hlt : i < bandLimit, t.matching freq = [⟨i, hlt⟩] := by
  have hlt : i < bandLimit := by
    obtain ⟨-, upper, -, hupper, -⟩ := hi
    obtain ⟨hlength, -⟩ := List.getElem?_eq_some_iff.mp hupper
    have hfit := hedges.fit
    omega
  have hnodup : (t.matching freq).Nodup := (List.nodup_finRange bandLimit).filter _
  refine ⟨hlt, List.perm_singleton.mp ?_⟩
  rw [List.perm_ext_iff_of_nodup hnodup (List.nodup_singleton _)]
  intro j
  rw [mem_matching h, List.mem_singleton, Fin.ext_iff]
  constructor
  · exact fun hj => hj.eq hedges hi
  · rintro rfl
    exact hi

/-- Frequencies between the first and the last edge have one match, all others have none. -/
theorem Holds.length_matching (h : t.Holds edges) (hedges : Admits edges) {first last : Float}
    (hfirst : edges.head? = some first) (hlast : edges.getLast? = some last) (freq : Float) :
    (t.matching freq).length = if withinEdges first last freq then 1 else 0 := by
  split
  · rename_i hwithin
    obtain ⟨i, hi⟩ := (exists_between_iff hedges hfirst hlast).mpr (withinEdges_iff.mp hwithin)
    obtain ⟨hlt, hmatching⟩ := h.matching_eq_singleton hedges hi
    rw [hmatching, List.length_singleton]
  · rename_i hwithin
    rw [List.length_eq_zero_iff, List.eq_nil_iff_forall_not_mem]
    intro i hi
    exact hwithin (withinEdges_iff.mpr (((mem_matching h).mp hi).within hedges hfirst hlast))

end

end BandTable

end StellarWind
