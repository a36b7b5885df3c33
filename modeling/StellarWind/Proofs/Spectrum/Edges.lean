import Mathlib.Data.List.Chain
import StellarWind.Proofs.Except
import StellarWind.Proofs.Number.Chart
import StellarWind.Proofs.Number.Order
import StellarWind.Spectrum.Basic

/-!
# Edges of a spectrum

A spectrum is built from edges that are positive, finite and increasing (`Admits`). Other
edges have a first defect in the order of the checks (`Defect`), and that is the one that is
reported. The bands adjoin each other from the first edge to the last (`Adjoins`).
-/

namespace StellarWind

/-- The first of the items with a property, and where it stands. -/
theorem find?_zipIdx_eq_some_iff {α : Type} {p : α → Bool} {xs : List α} {x : α} {i : Nat} :
    xs.zipIdx.find? (fun item => p item.1) = some (x, i) ↔
      xs[i]? = some x ∧ p x ∧ ∀ j < i, ∀ y, xs[j]? = some y → p y = false := by
  rw [List.find?_eq_some_iff_getElem]
  constructor
  · rintro ⟨hp, n, hn, hitem, hbefore⟩
    rw [List.length_zipIdx] at hn
    rw [List.getElem_zipIdx, Prod.mk.injEq, Nat.zero_add] at hitem
    obtain ⟨hx, rfl⟩ := hitem
    refine ⟨List.getElem?_eq_some_iff.mpr ⟨hn, hx⟩, hp, fun j hj y hy => ?_⟩
    obtain ⟨hlt, rfl⟩ := List.getElem?_eq_some_iff.mp hy
    simpa using hbefore j hj
  · rintro ⟨hx, hp, hbefore⟩
    obtain ⟨hi, rfl⟩ := List.getElem?_eq_some_iff.mp hx
    refine ⟨hp, i, by rwa [List.length_zipIdx], by simp, fun j hj => ?_⟩
    simpa using hbefore j hj _ (List.getElem?_eq_getElem (by omega))

theorem find?_zipIdx_eq_none_iff {α : Type} {p : α → Bool} {xs : List α} :
    xs.zipIdx.find? (fun item => p item.1) = none ↔ ∀ x ∈ xs, p x = false := by
  rw [List.find?_eq_none]
  constructor
  · intro h x hx
    obtain ⟨i, hi⟩ := List.getElem?_of_mem hx
    exact Bool.eq_false_iff.mpr (h (x, i) (List.mk_mem_zipIdx_iff_getElem?.mpr hi))
  · rintro h ⟨x, i⟩ hitem
    have hx : x ∈ xs := List.mem_of_getElem? (List.mk_mem_zipIdx_iff_getElem?.mp hitem)
    exact Bool.eq_false_iff.mp (h x hx)

namespace Spectrum

/-! ## Admissible edges and defects

The checks come in an order: the number of edges, then each edge on its own, then each edge against
the one before. A defect of one kind is reported only if there is none of the kinds before it, and
within a kind the first one is.
-/

/-- Edges that a spectrum can be built from. -/
structure Admits (edges : List Float) : Prop where
  enough : 2 ≤ edges.length
  fit : edges.length ≤ bandLimit + 1
  edge : ∀ x ∈ edges, x.isFinite = true ∧ 0 < x
  increasing : edges.IsChain (· < ·)

/-- The first defect of edges: their number, else an edge that is not finite and positive,
else an edge that is not above the one before it. -/
inductive Defect (edges : List Float) : Problem → Prop
  | few (hfew : edges.length < 2) : Defect edges (.tooFewEdges edges.length)
  | many (hmany : bandLimit + 1 < edges.length) : Defect edges (.tooManyBands (edges.length - 1))
  | invalid {index : Nat} {value : Float} (henough : 2 ≤ edges.length)
      (hfit : edges.length ≤ bandLimit + 1) (hvalue : edges[index]? = some value)
      (hbad : ¬ (value.isFinite = true ∧ 0 < value))
      (hfirst : ∀ i < index, ∀ x, edges[i]? = some x → x.isFinite = true ∧ 0 < x) :
      Defect edges (.invalidEdge index value)
  | falling {index : Nat} {lower upper : Float} (henough : 2 ≤ edges.length)
      (hfit : edges.length ≤ bandLimit + 1) (hedge : ∀ x ∈ edges, x.isFinite = true ∧ 0 < x)
      (hlower : edges[index]? = some lower) (hupper : edges[index + 1]? = some upper)
      (hfall : upper ≤ lower)
      (hfirst : ∀ i < index, ∀ x y, edges[i]? = some x → edges[i + 1]? = some y → ¬ y ≤ x) :
      Defect edges (.notIncreasing (index + 1) lower upper)

/-- Bands between adjoining edges, with a least share and no photons. -/
structure Adjoins (s : Spectrum) (edges : List Float) (minFraction : Float) : Prop where
  size : s.bands.length = edges.length - 1
  band : ∀ (i : Nat) (b : Band), s.bands[i]? = some b →
    edges[i]? = some b.lower ∧ edges[i + 1]? = some b.upper ∧ b.photons = 0 ∧
      b.minFraction = minFraction

theorem isEdge_iff (x : Float) : isEdge x ↔ x.isFinite = true ∧ 0 < x := by
  rw [isEdge, Bool.and_eq_true, Bool.not_eq_true', decide_eq_false_iff_not]
  refine and_congr_right fun hfinite => ?_
  exact Double.not_le (Double.isNaN_of_isFinite hfinite) (by decide +kernel)

theorem getElem?_steps {edges : List Float} {i : Nat} {lower upper : Float} :
    (steps edges)[i]? = some (lower, upper) ↔
      edges[i]? = some lower ∧ edges[i + 1]? = some upper := by
  rw [steps, List.getElem?_zip_eq_some, List.getElem?_tail]

/-- Edges increase exactly when no step from one to the next falls. -/
theorem isChain_iff_steps {edges : List Float} (hedge : ∀ x ∈ edges, x.isFinite = true ∧ 0 < x) :
    edges.IsChain (· < ·) ↔
      ∀ i lower upper, edges[i]? = some lower → edges[i + 1]? = some upper → ¬ upper ≤ lower := by
  have hnumber : ∀ x ∈ edges, x.isNaN = false := fun x hx =>
    Double.isNaN_of_isFinite (hedge x hx).1
  rw [List.isChain_iff_getElem]
  constructor
  · intro h i lower upper hlower hupper
    obtain ⟨-, rfl⟩ := List.getElem?_eq_some_iff.mp hlower
    obtain ⟨hi, rfl⟩ := List.getElem?_eq_some_iff.mp hupper
    exact Double.not_le_of_lt (h i hi)
  · intro h i hi
    have hlower : edges[i] ∈ edges := List.getElem_mem _
    have hupper : edges[i + 1] ∈ edges := List.getElem_mem _
    rw [← Double.not_le (hnumber _ hupper) (hnumber _ hlower)]
    exact h i _ _ (List.getElem?_eq_getElem _) (List.getElem?_eq_getElem _)

/-! ## The check of the edges

The two searches return the first edge and the first step that is wrong, with its index. Both are
searches in a list with indices.
-/

section

variable {edges : List Float}

theorem find?_edges_eq_some_iff {value : Float} {index : Nat} :
    edges.zipIdx.find? (fun (x, _) => !isEdge x) = some (value, index) ↔
      edges[index]? = some value ∧ ¬ (value.isFinite = true ∧ 0 < value) ∧
        ∀ i < index, ∀ x, edges[i]? = some x → x.isFinite = true ∧ 0 < x := by
  simp only [← isEdge_iff, Bool.not_eq_true]
  refine (find?_zipIdx_eq_some_iff (p := fun x => !isEdge x)).trans ?_
  simp only [Bool.not_eq_true', Bool.not_eq_false']

theorem find?_edges_eq_none_iff : edges.zipIdx.find? (fun (x, _) => !isEdge x) = none ↔
    ∀ x ∈ edges, x.isFinite = true ∧ 0 < x := by
  simp only [← isEdge_iff]
  refine (find?_zipIdx_eq_none_iff (p := fun x => !isEdge x)).trans ?_
  simp only [Bool.not_eq_false']

theorem find?_steps_eq_some_iff {lower upper : Float} {index : Nat} :
    (steps edges).zipIdx.find? (fun ((lower, upper), _) => decide (upper ≤ lower)) =
        some ((lower, upper), index) ↔
      (edges[index]? = some lower ∧ edges[index + 1]? = some upper) ∧ upper ≤ lower ∧
        ∀ i < index, ∀ x y, edges[i]? = some x → edges[i + 1]? = some y → ¬ y ≤ x := by
  refine (find?_zipIdx_eq_some_iff
    (p := fun step : Float × Float => decide (step.2 ≤ step.1))).trans ?_
  simp only [Prod.forall, getElem?_steps, decide_eq_true_eq, decide_eq_false_iff_not, and_imp]

theorem find?_steps_eq_none_iff :
    (steps edges).zipIdx.find? (fun ((lower, upper), _) => decide (upper ≤ lower)) = none ↔
      ∀ i x y, edges[i]? = some x → edges[i + 1]? = some y → ¬ y ≤ x := by
  refine (find?_zipIdx_eq_none_iff
    (p := fun step : Float × Float => decide (step.2 ≤ step.1))).trans ?_
  simp only [Prod.forall, List.mem_iff_getElem?, getElem?_steps, decide_eq_false_iff_not]
  grind

theorem problem?_of_admits (h : Admits edges) : problem? edges = none := by
  have henough := h.enough
  have hfit := h.fit
  rw [problem?, if_neg (by omega), if_neg (by omega), find?_edges_eq_none_iff.mpr h.edge]
  dsimp only
  rw [find?_steps_eq_none_iff.mpr ((isChain_iff_steps h.edge).mp h.increasing)]

theorem problem?_of_defect {p : Problem} (h : Defect edges p) : problem? edges = some p := by
  cases h with
  | few hfew => rw [problem?, if_pos hfew]
  | many hmany => rw [problem?, if_neg (by omega), if_pos (by omega)]
  | invalid henough hfit hvalue hbad hfirst =>
      rw [problem?, if_neg (by omega), if_neg (by omega),
        find?_edges_eq_some_iff.mpr ⟨hvalue, hbad, hfirst⟩]
  | falling henough hfit hedge hlower hupper hfall hfirst =>
      rw [problem?, if_neg (by omega), if_neg (by omega), find?_edges_eq_none_iff.mpr hedge]
      dsimp only
      rw [find?_steps_eq_some_iff.mpr ⟨⟨hlower, hupper⟩, hfall, hfirst⟩]

/-- Edges are admitted or have a defect. -/
theorem admits_or_defect (edges : List Float) : Admits edges ∨ ∃ p, Defect edges p := by
  by_cases hfew : edges.length < 2
  · exact .inr ⟨_, .few hfew⟩
  by_cases hmany : bandLimit + 1 < edges.length
  · exact .inr ⟨_, .many hmany⟩
  have henough : 2 ≤ edges.length := Nat.not_lt.mp hfew
  have hfit : edges.length ≤ bandLimit + 1 := Nat.not_lt.mp hmany
  -- Defects are looked for in the order in which they are reported.
  cases hfind : edges.zipIdx.find? (fun (x, _) => !isEdge x) with
  | some item =>
      obtain ⟨hvalue, hbad, hfirst⟩ := find?_edges_eq_some_iff.mp hfind
      exact .inr ⟨_, .invalid henough hfit hvalue hbad hfirst⟩
  | none =>
      have hedge := find?_edges_eq_none_iff.mp hfind
      cases hstep : (steps edges).zipIdx.find?
          (fun ((lower, upper), _) => decide (upper ≤ lower)) with
      | some item =>
          obtain ⟨⟨hlower, hupper⟩, hfall, hfirst⟩ := find?_steps_eq_some_iff.mp hstep
          exact .inr ⟨_, .falling henough hfit hedge hlower hupper hfall hfirst⟩
      | none =>
          have hincreasing := (isChain_iff_steps hedge).mpr (find?_steps_eq_none_iff.mp hstep)
          exact .inl ⟨henough, hfit, hedge, hincreasing⟩

/-! ## The bands between the edges

There is one band for each step from an edge to the next. What is done to the bands afterwards
changes their shares only.
-/

theorem ofEdges_eq_ok_iff {minFraction : Float} :
    (∃ s, ofEdges edges minFraction = .ok s) ↔ Admits edges := by
  unfold ofEdges
  obtain hadmits | ⟨p, hdefect⟩ := admits_or_defect edges
  · simp [problem?_of_admits hadmits, hadmits]
  · have hnot : ¬ Admits edges := fun hadmits => by
      simpa [problem?_of_admits hadmits] using problem?_of_defect hdefect
    simp [problem?_of_defect hdefect, hnot]

theorem ofEdges_eq_error_iff {minFraction : Float} {p : Problem} :
    ofEdges edges minFraction = .error p ↔ Defect edges p := by
  constructor
  · intro h
    obtain hadmits | ⟨q, hdefect⟩ := admits_or_defect edges
    · obtain ⟨s, hs⟩ := ofEdges_eq_ok_iff.mpr hadmits
      rw [h] at hs
      cases hs
    · rw [ofEdges, problem?_of_defect hdefect] at h
      cases h
      exact hdefect
  · intro h
    rw [ofEdges, problem?_of_defect h]

/-- Sharing out photons leaves the edges and the least shares as they are. -/
theorem Adjoins.normalized {s : Spectrum} {minFraction : Float} (h : s.Adjoins edges minFraction) :
    s.normalized.Adjoins edges minFraction := by
  unfold Spectrum.normalized
  dsimp only
  split
  · refine ⟨by rw [List.length_map, h.size], fun i b hb => ?_⟩
    rw [List.getElem?_map, Option.map_eq_some_iff] at hb
    obtain ⟨c, hc, rfl⟩ := hb
    exact h.band i c hc
  · exact h

theorem adjoins_of_ofEdges {minFraction : Float} {s : Spectrum}
    (h : ofEdges edges minFraction = .ok s) : s.Adjoins edges minFraction := by
  unfold ofEdges at h
  split at h
  · cases h
  · cases h
    apply Adjoins.normalized
    refine ⟨?_, fun i b hb => ?_⟩
    · rw [List.length_map, steps, List.length_zip, List.length_tail]
      omega
    · rw [List.getElem?_map, Option.map_eq_some_iff] at hb
      obtain ⟨⟨lower, upper⟩, hstep, rfl⟩ := hb
      obtain ⟨hlower, hupper⟩ := getElem?_steps.mp hstep
      exact ⟨hlower, hupper, rfl, rfl⟩

/-- A spectrum has no more bands than a table has slots. -/
theorem size_ofEdges {minFraction : Float} {s : Spectrum}
    (h : ofEdges edges minFraction = .ok s) : s.size ≤ bandLimit := by
  have hfit := (ofEdges_eq_ok_iff.mp ⟨s, h⟩).fit
  rw [size, (adjoins_of_ofEdges h).size]
  omega

theorem Adjoins.contiguous {s : Spectrum} {minFraction : Float}
    (h : s.Adjoins edges minFraction) {i : Nat} {b c : Band} (hb : s.bands[i]? = some b)
    (hc : s.bands[i + 1]? = some c) : c.lower = b.upper := by
  have hupper := (h.band i b hb).2.1
  rw [(h.band (i + 1) c hc).1] at hupper
  exact Option.some.inj hupper

end

/-! ## Even spacing

The edges between are computed with logarithms and powers, and the two ends are put in as they are
given. So the ends are exact, and the checks on the edges decide whether the others increase.
-/

section

variable [Elementary] {low high : Float} {count : Nat}

theorem getElem?_logEdges_zero (h : count ≠ 0) : (logEdges low high count)[0]? = some low := by
  simp [logEdges, h.symm]

theorem getElem?_logEdges_count : (logEdges low high count)[count]? = some high := by
  simp [logEdges]

theorem ofEdges_of_logUniform {s : Spectrum} (h : logUniform low high count = .ok s) :
    count ≠ 0 ∧ ofEdges (logEdges low high count) 0 = .ok s := by
  unfold logUniform at h
  split at h
  · cases h
  · rename_i hzero
    split at h
    · cases h
    · split at h
      · cases h
      · exact ⟨by simpa using hzero, reported_eq_ok_iff.mp h⟩

theorem size_logUniform {s : Spectrum} (h : logUniform low high count = .ok s) :
    s.bands.length = count := by
  rw [(adjoins_of_ofEdges (ofEdges_of_logUniform h).2).size, logEdges, List.length_map,
    List.length_range, Nat.add_sub_cancel]

/-- The first band starts at the low end and the last one stops at the high end. -/
theorem ends_logUniform {s : Spectrum} (h : logUniform low high count = .ok s) :
    s.bands.head?.map (·.lower) = some low ∧ s.bands.getLast?.map (·.upper) = some high := by
  obtain ⟨hzero, hedges⟩ := ofEdges_of_logUniform h
  have hband := (adjoins_of_ofEdges hedges).band
  have hsize := size_logUniform h
  constructor
  · obtain ⟨first, hfirst⟩ : ∃ b, s.bands[0]? = some b := ⟨_, List.getElem?_eq_getElem (by omega)⟩
    have hlow := (hband 0 first hfirst).1
    rw [getElem?_logEdges_zero hzero] at hlow
    rw [List.head?_eq_getElem?, hfirst, hlow]
    rfl
  · obtain ⟨last, hlast⟩ : ∃ b, s.bands[count - 1]? = some b :=
      ⟨_, List.getElem?_eq_getElem (by omega)⟩
    have hhigh := (hband (count - 1) last hlast).2.1
    rw [Nat.sub_add_cancel (Nat.pos_of_ne_zero hzero), getElem?_logEdges_count] at hhigh
    rw [List.getLast?_eq_getElem?, hsize, hlast, hhigh]
    rfl

end

/-- Spectra are built from exactly the edges that are admitted, with bands between
adjoining edges, and the first defect of all other edges is reported. Evenly spaced bands
adjoin each other, and both ends are exact whatever the elementary functions are. -/
theorem ofEdges_exact [Elementary] (edges : List Float) (minFraction : Float) :
    ((∃ s, ofEdges edges minFraction = .ok s) ↔
      2 ≤ edges.length ∧ edges.length ≤ 21 ∧ (∀ x ∈ edges, x.isFinite = true ∧ 0 < x) ∧
        edges.IsChain (· < ·)) ∧
    (∀ s, ofEdges edges minFraction = .ok s → s.Adjoins edges minFraction) ∧
    (∀ problem, ofEdges edges minFraction = .error problem ↔ Defect edges problem) ∧
    ∀ (low high : Float) (count : Nat) (s : Spectrum), logUniform low high count = .ok s →
      s.size = count ∧
      (∀ i b c, s.bands[i]? = some b → s.bands[i + 1]? = some c → c.lower = b.upper) ∧
      s.bands.head?.map (·.lower) = some low ∧ s.bands.getLast?.map (·.upper) = some high := by
  refine ⟨?_, fun s => adjoins_of_ofEdges, fun problem => ofEdges_eq_error_iff, ?_⟩
  · rw [ofEdges_eq_ok_iff]
    exact ⟨fun h => ⟨h.enough, h.fit, h.edge, h.increasing⟩,
      fun ⟨henough, hfit, hedge, hincreasing⟩ => ⟨henough, hfit, hedge, hincreasing⟩⟩
  · intro low high count s h
    have hadjoins := adjoins_of_ofEdges (ofEdges_of_logUniform h).2
    exact ⟨size_logUniform h, fun i b c => hadjoins.contiguous, ends_logUniform h⟩

/-- Two bands, edges that fall before one that is not a number, and bands that are evenly spaced
by the platform's logarithms and powers. -/
theorem ofEdges_exact_charted :
    letI : Elementary := charted
    (∃ s, ofEdges [1, 2, 3] 0.5 = .ok s ∧ s.Adjoins [1, 2, 3] 0.5) ∧
    ofEdges [3, 2, 0 / 0] 0.5 = .error (.invalidEdge 2 (0 / 0)) ∧
    ∃ s, logUniform 1 3 2 = .ok s ∧ s.size = 2 ∧ s.bands.head?.map (·.lower) = some 1 ∧
      s.bands.getLast?.map (·.upper) = some 3 := by
  let _ : Elementary := charted
  obtain ⟨hok, hadjoins, -, hlog⟩ := ofEdges_exact [1, 2, 3] 0.5
  obtain ⟨-, -, herror, -⟩ := ofEdges_exact [3, 2, 0 / 0] 0.5
  have hdefect : Defect [3, 2, 0 / 0] (.invalidEdge 2 (0 / 0)) := by
    apply Defect.invalid
    · decide
    · decide
    · rfl
    · decide +kernel
    · intro i hi x hx
      obtain rfl | rfl : i = 0 ∨ i = 1 := by omega
      · cases hx
        decide +kernel
      · cases hx
        decide +kernel
  refine ⟨?_, (herror _).mpr hdefect, ?_⟩
  · obtain ⟨s, hs⟩ := hok.mpr (by decide +kernel)
    exact ⟨s, hs, hadjoins s hs⟩
  · have hisOk : (logUniform 1 3 2).isOk = true := by decide +kernel
    cases hs : logUniform 1 3 2 with
    | error p =>
        rw [hs] at hisOk
        cases hisOk
    | ok s =>
        obtain ⟨hsize, -, hends⟩ := hlog 1 3 2 s hs
        exact ⟨s, rfl, hsize, hends⟩

end Spectrum

end StellarWind
