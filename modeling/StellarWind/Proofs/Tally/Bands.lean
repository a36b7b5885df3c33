import Mathlib.Algebra.BigOperators.Group.List.Basic
import StellarWind.Proofs.Spectrum.Table
import StellarWind.Proofs.Tally.Recording

/-!
# Bands of a tally

A tally that carries the table of a spectrum counts every segment in the one band that its
frequency lies in. `Banded` says which segments the bands hold; recording a segment adds it
to them. Over a whole run the counts of all bands add up to the number of segments with a
frequency between the first and the last edge.
-/

namespace StellarWind

/-! ## Counting in two ways

The counts of the bands are sums over bands of numbers of segments. The number of segments in
any band is a sum over segments of numbers of bands.
-/

theorem length_filter_eq_sum {α : Type} (p : α → Bool) (xs : List α) :
    (xs.filter p).length = (xs.map fun x => if p x then 1 else 0).sum := by
  rw [List.sum_map_ite]
  simp

theorem sum_length_filter_comm {α β : Type} (p : α → β → Bool) (xs : List α) (ys : List β) :
    (xs.map fun x => (ys.filter (p x)).length).sum =
      (ys.map fun y => (xs.filter (p · y)).length).sum := by
  induction xs with
  | nil => simp
  | cons x xs ih =>
      rw [List.map_cons, List.sum_cons, ih, length_filter_eq_sum, ← List.sum_map_add]
      congr 2
      funext y
      rw [List.filter_cons]
      split
      · rw [List.length_cons, Nat.add_comm]
      · exact Nat.zero_add _

theorem BandTable.Holds.takes_iff {table : BandTable} {edges : List Float}
    (h : table.Holds edges) {i : Fin bandLimit} {s : Segment} :
    table.takes i s ↔ Spectrum.Between edges s.freq i :=
  h.holds s.freq i

namespace Tally

/-! ## Bands in use

The bands in use are the first slots of the table. A segment is reported for the first of them that
takes it, and for none if its frequency lies beyond the ends.
-/

theorem toList_bandTallies (t : Tally) :
    t.bandTallies.toList = (List.finRange bandLimit).map t.bandTallies.get := by
  apply List.ext_getElem
  · simp
  · intro i hi hi'
    simp [Vector.get]

theorem activeBands_eq {t : Tally} (hcount : t.bands.count ≤ bandLimit) : t.activeBands =
    .ok (((List.finRange bandLimit).take t.bands.count).map t.bandTallies.get) := by
  rw [activeBands, if_neg (Nat.not_lt.mpr hcount), toList_bandTallies, List.map_take]

section

variable {table : BandTable} {edges : List Float} {first last : Float}

/-- A segment is reported for no band exactly when its frequency is beyond the ends. -/
theorem Reports.band_eq_none_iff {s : Segment} {e : Effect} (h : Reports table s e)
    (htable : table.Holds edges) (hedges : Spectrum.Admits edges)
    (hfirst : edges.head? = some first) (hlast : edges.getLast? = some last) :
    e.band = none ↔ ¬ (first < s.freq ∧ s.freq ≤ last) := by
  rw [← Spectrum.exists_between_iff hedges hfirst hlast]
  constructor
  · rintro hnone ⟨i, hi⟩
    obtain ⟨hlt, hmatching⟩ := htable.matching_eq_singleton hedges hi
    have hsome : e.band = some ⟨i, hlt⟩ := by
      rw [h.band]
      refine ⟨htable.takes_iff.mpr hi, fun j hj htakes => ?_⟩
      exact absurd ((htable.takes_iff.mp htakes).eq hedges hi) (Nat.ne_of_lt hj)
    rw [hnone] at hsome
    cases hsome
  · intro hnone
    rw [Option.eq_none_iff_forall_ne_some]
    intro i hi
    exact hnone ⟨i, htable.takes_iff.mp ((h.band i).mp hi).1⟩

end

/-! ## What the bands hold

The slot of a band holds the segments that the band takes. A slot that is not in use takes none, so
that the sum over the bands in use is the sum over all slots, and the order of summation can be
changed.
-/

section

variable [Elementary] [Addition]

/-- The bands of a tally follow a table and hold the given segments. -/
structure Banded (t : Tally) (table : BandTable) (ss : List Segment) : Prop where
  bands : t.bands = table
  slot : ∀ i, t.bandTallies.get i = BandTally.empty.after (ss.filter (table.takes i))

theorem banded_blank (index cell : Nat) (table : BandTable) :
    Banded { blank index cell with bands := table } table [] where
  bands := rfl
  slot := fun i => get_blank index cell i

theorem Banded.routed {t : Tally} {table : BandTable} {ss : List Segment}
    (h : t.Banded table ss) (steps : List (CoordSystem × Segment)) :
    (t.routed steps).Banded table (ss ++ steps.map Prod.snd) where
  bands := h.bands
  slot := fun i => by
    rw [get_routed, h.slot, h.bands, List.filter_append, BandTally.after_append]

variable {t : Tally} {table : BandTable} {edges : List Float} {ss : List Segment}

/-- Every band in use holds the segments with a frequency between its edges. -/
theorem Banded.exists_activeBands (h : t.Banded table ss) (htable : table.Holds edges) :
    ∃ bs, t.activeBands = .ok bs ∧ bs.length = edges.length - 1 ∧
      ∀ i lower upper b, edges[i]? = some lower → edges[i + 1]? = some upper → bs[i]? = some b →
        b = BandTally.empty.after (ss.filter fun s => withinEdges lower upper s.freq) := by
  have hfit := htable.fit
  refine ⟨_, activeBands_eq (by rwa [h.bands]), ?_, ?_⟩
  · rw [h.bands, List.length_map, List.length_take, List.length_finRange, htable.count]
    rw [htable.count] at hfit
    omega
  · intro i lower upper b hlower hupper hb
    rw [List.getElem?_map, Option.map_eq_some_iff] at hb
    obtain ⟨j, hj, rfl⟩ := hb
    obtain ⟨hlt, rfl⟩ := List.getElem?_eq_some_iff.mp hj
    have htakes (s : Segment) : table.takes ((List.finRange bandLimit).take t.bands.count)[i] s =
        withinEdges lower upper s.freq := by
      rw [Bool.eq_iff_iff, htable.takes_iff, ← Spectrum.between_iff hlower hupper]
      simp
    rw [h.slot, funext htakes]

/-- The counts of the bands in use add up to the number of matches of the segments. -/
theorem Banded.sum_counts (h : t.Banded table ss) (hcount : table.count ≤ bandLimit)
    {bs : List BandTally} (hbs : t.activeBands = .ok bs) : (bs.map (·.count)).sum =
      (ss.map fun s => (table.matching s.freq).length).sum := by
  let held (i : Fin bandLimit) : Nat := (ss.filter (table.takes i)).length
  have hheld (i : Fin bandLimit) : (t.bandTallies.get i).count = held i := by
    rw [h.slot]
    exact Nat.zero_add _
  have hunused : (((List.finRange bandLimit).drop table.count).map held).sum = 0 := by
    apply List.sum_eq_zero
    rw [List.forall_mem_map]
    intro i hi
    obtain ⟨k, hk, rfl⟩ := List.getElem_of_mem hi
    have hle : table.count ≤ (((List.finRange bandLimit).drop table.count)[k]).val := by simp
    exact congrArg List.length (table.filter_takes_of_count_le hle ss)
  rw [activeBands_eq (by rwa [h.bands]), h.bands] at hbs
  cases hbs
  -- Slots that are not in use hold nothing, so that the sum may run over all slots.
  calc ((((List.finRange bandLimit).take table.count).map t.bandTallies.get).map (·.count)).sum
      = (((List.finRange bandLimit).take table.count).map held).sum := by
        rw [List.map_map]
        exact congrArg (fun f => (List.map f _).sum) (funext hheld)
    _ = ((List.finRange bandLimit).map held).sum := by
        conv_rhs => rw [← List.take_append_drop table.count (List.finRange bandLimit)]
        rw [List.map_append, List.sum_append, hunused, Nat.add_zero]
    _ = (ss.map fun s => (table.matching s.freq).length).sum :=
        sum_length_filter_comm table.takes _ ss

/-! ## Runs

Every segment between the ends matches one band, so that the sum over the segments is the number of
such segments.
-/

/-- The bands of a spectrum partition the frequencies above its first edge up to its last.
So a run that does not overflow adds to the counts of the bands one for every segment in
between, and the segments that are reported for no band are the others. -/
theorem recordAll_partitions {edges : List Float} {minFraction : Float} {s : Spectrum}
    (h : Spectrum.ofEdges edges minFraction = .ok s) :
    ∃ first last table, edges.head? = some first ∧ edges.getLast? = some last ∧
      BandTable.ofSpectrum s = .ok table ∧
      (∀ freq, (table.matching freq).length ≤ 1 ∧
        (table.matching freq ≠ [] ↔ first < freq ∧ freq ≤ last) ∧
        ∀ i ∈ table.matching freq, ∀ j, Spectrum.Between edges freq j ↔ j = i.val) ∧
      ∀ (index cell : Nat) (steps : List (CoordSystem × Segment)),
        (steps.length < Count.range64 → ∃ effects t bs,
          recordAll { blank index cell with bands := table } steps = (.ok effects, t) ∧
          t.activeBands = .ok bs ∧ bs.length = edges.length - 1 ∧
          (bs.map (·.count)).sum =
            (steps.filter fun p => withinEdges first last p.2.freq).length ∧
          List.Forall₂ (fun p e => e.band = none ↔ ¬ (first < p.2.freq ∧ p.2.freq ≤ last))
            steps effects) ∧
        (Count.range64 ≤ steps.length →
          (recordAll { blank index cell with bands := table } steps).1 = .error .overflow) := by
  have hedges : Spectrum.Admits edges := Spectrum.ofEdges_eq_ok_iff.mp ⟨s, h⟩
  obtain ⟨first, last, hfirst, hlast⟩ := hedges.exists_ends
  obtain ⟨table, htable, hholds⟩ := BandTable.exists_holds h
  have hlength := hholds.length_matching hedges hfirst hlast
  refine ⟨first, last, table, hfirst, hlast, htable, fun freq => ⟨?_, ?_, ?_⟩, ?_⟩
  · rw [hlength]
    split <;> omega
  · rw [← List.length_pos_iff, hlength, ← withinEdges_iff]
    split_ifs with hwithin <;> simp [hwithin]
  · intro i hi j
    have hbetween := (BandTable.mem_matching hholds).mp hi
    constructor
    · exact fun hj => hj.eq hedges hbetween
    · rintro rfl
      exact hbetween
  · intro index cell steps
    have hstart : InRange { blank index cell with bands := table } :=
      (below_blank index cell hholds.fit).mono (by decide)
    have hrange := inRange_routed_blank_iff index cell hholds.fit steps
    constructor
    · intro hlt
      have hbanded := (banded_blank index cell table).routed steps
      obtain ⟨bs, hbs, hsize, -⟩ := hbanded.exists_activeBands hholds
      refine ⟨_, _, bs, recordAll_ok hstart (hrange.mpr hlt), hbs, hsize, ?_,
        (reports_effects _ steps).imp fun p e hp =>
          hp.band_eq_none_iff hholds hedges hfirst hlast⟩
      -- A segment is in one band or in none, so that matches are counted as segments are.
      rw [hbanded.sum_counts hholds.fit hbs, List.nil_append, List.map_map, length_filter_eq_sum]
      exact congrArg (fun f => (steps.map f).sum) (funext fun p => hlength p.2.freq)
    · intro hle
      exact recordAll_overflow hstart (mt hrange.mp (Nat.not_lt.mpr hle))

end

/-- A frequency on the first edge, one on the second edge, one that is not a number and one
in the second band. -/
def edgewise : List (CoordSystem × Segment) :=
  [(.spherical, segmentOf 1e14 0 .star), (.cylindrical, segmentOf 1e15 1 .disk),
    (.spherical, segmentOf (0 / 0) 2 .wind), (.cylindrical, segmentOf 2e15 3 .star)]

theorem recordAll_partitions_edgewise : ∃ s table effects t bs,
    Spectrum.ofEdges [1e14, 1e15, 1e16] 0 = .ok s ∧ BandTable.ofSpectrum s = .ok table ∧
      recordAll { blank 0 0 with bands := table } edgewise = (.ok effects, t) ∧
      t.activeBands = .ok bs ∧ bs.length = 2 ∧ (bs.map (·.count)).sum = 2 := by
  obtain ⟨s, hs⟩ : ∃ s, Spectrum.ofEdges [1e14, 1e15, 1e16] 0 = .ok s :=
    Spectrum.ofEdges_eq_ok_iff.mpr ⟨by decide, by decide, by decide +kernel, by decide +kernel⟩
  obtain ⟨first, last, table, hfirst, hlast, htable, -, hrun⟩ := recordAll_partitions hs
  cases hfirst
  cases hlast
  obtain ⟨effects, t, bs, hrun, hbs, hlength, hsum, -⟩ := (hrun 0 0 edgewise).1 (by decide)
  exact ⟨s, table, effects, t, bs, hs, htable, hrun, hbs, hlength, hsum.trans (by decide +kernel)⟩

end Tally

end StellarWind
