import StellarWind.Proofs.Random.Packets
import StellarWind.Proofs.Wind.InPlace
import StellarWind.Survey.Sampling

/-!
# Sampling a grid

Sampling in some cells adds to their tallies, as many segments as were asked for and
cell by cell as often as the cell is named, and leaves everything else alone
(`Grid.sampled_of_sampleCells`). It succeeds when the frequencies are a range to draw from and
all segments can be counted (`Grid.exists_sampleCells`).
-/

namespace StellarWind

/-! ## What sampling does to tallies

A segment that was recorded adds one to the segments of its tally and at most one to every other
count. The induction over the segments of a cell adds these up, and the one over the cells puts the
tallies back into their places. A cell that is named twice is sampled twice.
-/

namespace Tally

/-- The second tally is the first with `n` more segments, which it has room for. -/
structure Filled (n : Nat) (t t' : Tally) : Prop where
  numbers : t'.numbers = t.numbers
  bands : t'.bands = t.bands
  segments : t'.segments = t.segments + n
  inRange : t'.InRange
  below : ∀ limit, t.Below limit → t'.Below (limit + n)

theorem Filled.refl {t : Tally} (h : t.InRange) : Filled 0 t t := ⟨rfl, rfl, rfl, h, fun _ => id⟩

theorem Filled.trans {m n : Nat} {t u t' : Tally} (h : Filled m t u) (h' : Filled n u t') :
    Filled (m + n) t t' where
  numbers := h'.numbers.trans h.numbers
  bands := h'.bands.trans h.bands
  segments := by rw [h'.segments, h.segments, Nat.add_assoc]
  inRange := h'.inRange
  below := fun limit hlimit => by
    rw [← Nat.add_assoc]
    exact h'.below _ (h.below limit hlimit)

variable [Elementary]

theorem filled_routed {t : Tally} {p : CoordSystem × Segment} (h : (t.routed [p]).InRange) :
    Filled 1 t (t.routed [p]) :=
  ⟨rfl, rfl, rfl, h, fun _ hlimit => hlimit.routed [p]⟩

theorem filled_record {t t' : Tally} {system : CoordSystem} {s : Segment} {e : Effect}
    (ht : t.InRange) (h : t.record system s = (.ok e, t')) : Filled 1 t t' := by
  by_cases hrange : (t.routed [(system, s)]).InRange
  · rw [record_ok (p := (system, s)) ht hrange] at h
    cases h
    exact filled_routed hrange
  · have hfault := record_overflow (p := (system, s)) ht hrange
    rw [h] at hfault
    cases hfault

end Tally

namespace Grid

/-! ### The tallies of a grid

Every cell of the list fills its own tally, and a cell that comes twice fills it twice.
-/

/-- What holds of all tallies, and of one that takes the place of another, holds of all. -/
theorem forall_mem_set {P : Tally → Prop} {tallies : List Tally} {n : Nat} {t : Tally}
    (h : ∀ u ∈ tallies, P u) (ht : P t) : ∀ u ∈ tallies.set n t, P u := by
  intro u hu
  rcases List.mem_or_eq_of_mem_set hu with hu | rfl
  · exact h u hu
  · exact ht

/-- The second grid is the first after `times` segments were sampled in each of the given
cells. -/
structure Sampled (times : Nat) (ns : List Nat) (g g' : Grid) : Prop where
  domains : g'.domains = g.domains
  cells : g'.cells = g.cells
  length : g'.tallies.length = g.tallies.length
  tally : ∀ (j : Nat) (t : Tally), g.tallies[j]? = some t →
    ∃ t', g'.tallies[j]? = some t' ∧ t.Filled (times * ns.count j) t'

theorem Sampled.nil (times : Nat) {g : Grid} (h : ∀ t ∈ g.tallies, t.InRange) :
    Sampled times [] g g :=
  ⟨rfl, rfl, rfl, fun _ t ht => ⟨t, ht, .refl (h t (List.mem_of_getElem? ht))⟩⟩

theorem Sampled.cons {times n : Nat} {ns : List Nat} {g g' : Grid} {t t' : Tally}
    (ht : g.tallies[n]? = some t) (hfilled : t.Filled times t')
    (h : Sampled times ns { g with tallies := g.tallies.set n t' } g') :
    Sampled times (n :: ns) g g' where
  domains := h.domains
  cells := h.cells
  length := h.length.trans List.length_set
  tally := by
    intro j u hu
    -- The tally of the first cell has been filled once already when the others are sampled.
    by_cases hnj : n = j
    · subst hnj
      obtain rfl : t = u := Option.some.inj (ht.symm.trans hu)
      have hset : (g.tallies.set n t')[n]? = some t' :=
        List.getElem?_set_self (List.getElem?_eq_some_iff.mp ht).1
      obtain ⟨u', hu', hrest⟩ := h.tally n t' hset
      refine ⟨u', hu', ?_⟩
      rw [List.count_cons_self, Nat.mul_succ, Nat.add_comm]
      exact hfilled.trans hrest
    · have hset : (g.tallies.set n t')[j]? = some u := by rw [List.getElem?_set_ne hnj, hu]
      obtain ⟨u', hu', hrest⟩ := h.tally j u hset
      refine ⟨u', hu', ?_⟩
      rwa [List.count_cons_of_ne hnj]

end Grid

section

variable {γ : Type} [RandomSource γ] [Elementary]

theorem Tally.filled_of_fill {system : CoordSystem} {c : Cell} {n : Nat} {t t' : Tally}
    {s s' : Sampler γ} (ht : t.InRange) (h : t.fill system c n s = (.ok (), t', s')) :
    Filled n t t' := by
  induction n generalizing t s with
  | zero =>
      cases h
      exact .refl ht
  | succ n ih =>
      rw [fill] at h
      split at h
      · cases h
      · split at h
        · cases h
        · next hrecord =>
            have hfilled := filled_record ht hrecord
            rw [Nat.add_comm]
            exact hfilled.trans (ih hfilled.inRange h)

theorem Grid.sampled_of_sampleCells {times : Nat} {ns : List Nat} {g g' : Grid} {s s' : Sampler γ}
    (hg : ∀ t ∈ g.tallies, t.InRange) (h : sampleCells times ns g s = (.ok (), g', s')) :
    Sampled times ns g g' := by
  induction ns generalizing g s with
  | nil =>
      cases h
      exact .nil times hg
  | cons n ns ih =>
      rw [sampleCells, sampleCell] at h
      cases hc : g.cells[n]? with
      | none => simp [hc] at h
      | some c =>
          cases ht : g.tallies[n]? with
          | none => simp [hc, ht] at h
          | some t =>
              rcases hfill : t.fill (g.systemOf c) c times s with ⟨fault | u, t', mid⟩
              · simp [hc, ht, hfill] at h
              · simp only [hc, ht, hfill] at h
                have hfilled := Tally.filled_of_fill (hg t (List.mem_of_getElem? ht)) hfill
                exact .cons ht hfilled (ih (forall_mem_set hg hfilled.inRange) h)

end

/-! ## When sampling succeeds

Two things can stop it: a frequency that cannot be drawn, and a count out of range. The frequencies
stay what they are, and the limit on the counts grows by one with every segment.
-/

section

variable {γ : Type} [RandomSource γ] [Elementary]

theorem Tally.exists_fill (system : CoordSystem) (c : Cell) {n limit : Nat} {t : Tally}
    {s : Sampler γ} (hs : n = 0 ∨ s.Steady) (ht : t.Below limit)
    (hroom : limit + n ≤ Count.range64) :
    ∃ t' s', t.fill system c n s = (.ok (), t', s') ∧ (s.Steady → s'.Steady) := by
  induction n generalizing t s limit with
  | zero => exact ⟨t, s, rfl, id⟩
  | succ n ih =>
      have hsteady : s.Steady := hs.resolve_left n.succ_ne_zero
      obtain ⟨p, r, mid, hsample, htook, hok, -⟩ := Sampler.run_sample c s
      obtain ⟨segment, rfl, -⟩ := hok hsteady
      have hmid : mid.Steady := htook.steady_iff.mpr hsteady
      have hnext : (t.routed [(system, segment)]).Below (limit + 1) := ht.routed _
      have hrecord := record_ok (p := (system, segment)) (ht.mono (by omega))
        (hnext.mono (by omega))
      obtain ⟨t', s', hrest, hs'⟩ := ih (.inr hmid) hnext (by omega)
      refine ⟨t', s', ?_, fun _ => hs' hmid⟩
      rw [fill, hsample]
      dsimp only
      rw [hrecord]
      exact hrest

/-- Sampling succeeds in cells of the grid, if there is nothing to sample or the frequencies
are a range, and if there is room for all segments in any of the tallies. -/
theorem Grid.exists_sampleCells {times limit : Nat} {ns : List Nat} {g : Grid} {s : Sampler γ}
    (hs : times = 0 ∨ s.Steady)
    (hns : ∀ n ∈ ns, n < g.cells.length ∧ n < g.tallies.length)
    (hg : ∀ t ∈ g.tallies, t.Below limit) (hroom : limit + times * ns.length ≤ Count.range64) :
    ∃ g' s', sampleCells times ns g s = (.ok (), g', s') := by
  induction ns generalizing g s limit with
  | nil => exact ⟨g, s, rfl⟩
  | cons n ns ih =>
      rw [List.forall_mem_cons] at hns
      obtain ⟨⟨hcell, htally⟩, hns⟩ := hns
      rw [List.length_cons, Nat.mul_succ] at hroom
      have hbelow := hg _ (List.getElem_mem htally)
      obtain ⟨t', mid, hfill, hmid⟩ :=
        Tally.exists_fill (g.systemOf g.cells[n]) g.cells[n] hs hbelow (by omega)
      have hfilled := Tally.filled_of_fill (hbelow.mono (by omega)) hfill
      have hlater (t : Tally) (ht : t ∈ g.tallies) : t.Below (limit + times) :=
        (hg t ht).mono (Nat.le_add_right limit times)
      -- The first cell takes its part of the room away from all tallies, for simplicity.
      obtain ⟨g', s', hrest⟩ := ih (g := { g with tallies := g.tallies.set n t' }) (s := mid)
        (hs.imp id hmid) (by simpa using hns) (forall_mem_set hlater (hfilled.below limit hbelow))
        (by omega)
      refine ⟨g', s', ?_⟩
      rw [sampleCells, sampleCell, List.getElem?_eq_getElem hcell, List.getElem?_eq_getElem htally]
      dsimp only
      rw [hfill]
      exact hrest

end

end StellarWind
