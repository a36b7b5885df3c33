import StellarWind.Proofs.Spectrum.Table
import StellarWind.Proofs.Tally.Routing

/-!
# Tallies that take over bands

The table of a spectrum has the edges of its bands in the first slots and nothing in the
others (`BandTable.Copies`). So a frequency matches a slot exactly when it lies in the band
of that place, whether the bands are in order or not. Installing a spectrum replaces the
tables of all tallies by this one, and a spectrum that no table can hold changes nothing.
-/

namespace StellarWind

namespace BandTable

/-! ## Tables and bands

A slot compares a frequency with its edges in the same way as the band does, and a slot that is not
in use matches nothing.
-/

/-- The table has the edges of the bands in its first slots, and nothing in the others. -/
structure Copies (t : BandTable) (s : Spectrum) : Prop where
  count : t.count = s.size
  used : ∀ (i : Fin bandLimit) (b : Band), s.bands[i.val]? = some b →
    t.slots.get i = ⟨b.lower, b.upper⟩
  unused : ∀ i : Fin bandLimit, s.size ≤ i.val → t.slots.get i = ⟨0, 0⟩

theorem copies_ofSpectrum {s : Spectrum} (h : s.size ≤ bandLimit) :
    ∃ table, ofSpectrum s = .ok table ∧ table.Copies s := by
  refine ⟨_, if_neg (Nat.not_lt.mpr h), rfl, fun i b hb => ?_, fun i hi => ?_⟩
  · rw [ofEdges, get_ofFn, List.getElem?_map, hb]
    rfl
  · rw [ofEdges, get_ofFn, List.getElem?_map, List.getElem?_eq_none hi]
    rfl

section

variable {t : BandTable} {s : Spectrum}

/-- The two tests of a frequency agree: on a slot in use, and on the band of its place. -/
theorem Copies.holds_iff (h : t.Copies s) {freq : Float} {i : Fin bandLimit} :
    t.holds freq i ↔ ∃ b, s.bands[i.val]? = some b ∧ b.contains freq := by
  have hslot : t.slots[i] = t.slots.get i := rfl
  rw [holds, Bool.and_eq_true, decide_eq_true_eq, hslot, h.count]
  constructor
  · rintro ⟨hi, hwithin⟩
    have hb : s.bands[i.val]? = some (s.bands.get ⟨i.val, hi⟩) := List.getElem?_eq_getElem hi
    rw [h.used i _ hb] at hwithin
    exact ⟨_, hb, hwithin⟩
  · rintro ⟨b, hb, hcontains⟩
    rw [h.used i b hb]
    exact ⟨(List.getElem?_eq_some_iff.mp hb).1, hcontains⟩

/-- The slots that a frequency matches are the places of the bands that it lies in. -/
theorem Copies.matching_eq (h : t.Copies s) (hsize : s.size ≤ bandLimit) (freq : Float) :
    (t.matching freq).map Fin.val =
      (List.range s.size).filter fun i => s.bands[i]?.any (·.contains freq) := by
  have hholds : t.holds freq =
      (fun i => s.bands[i]?.any (·.contains freq)) ∘ (Fin.val : Fin bandLimit → Nat) := by
    funext i
    rw [Bool.eq_iff_iff, h.holds_iff, Function.comp_apply, Option.any_eq_true]
  have hbeyond : ((List.range' s.size (bandLimit - s.size)).filter
      fun i => s.bands[i]?.any (·.contains freq)) = [] := by
    rw [List.filter_eq_nil_iff]
    intro i hi
    rw [List.getElem?_eq_none (List.mem_range'_1.mp hi).1]
    simp
  -- All places are listed in order, and behind the last band there is nothing to match.
  rw [matching, hholds, ← List.filter_map, List.map_coe_finRange_eq_range, List.range_eq_range',
    ← Nat.add_sub_of_le hsize, ← List.range'_append_1, List.filter_append, Nat.zero_add, hbeyond,
    List.append_nil, ← List.range_eq_range']

end

end BandTable

/-! ## All tallies

The table is made before any tally is changed, so that a failure leaves all as they were. A tally
takes the table as it is, and taking it again changes nothing.
-/

namespace Spectrum

/-- Whatever the bands of a spectrum are, and whatever bands the tallies had: a spectrum that
fits gives all tallies its table and changes nothing else, so that their matches are the
bands that contain the frequency, and giving it again changes nothing. A spectrum with too
many bands fails and leaves the tallies as they were. -/
theorem installing_copies (s : Spectrum) (tallies : List Tally) :
    (s.size ≤ 20 → ∃ installed, s.installing tallies = (.ok (), installed) ∧
      List.Forall₂ (fun t t' : Tally => t' = { t with bands := t'.bands } ∧ t'.bands.Copies s ∧
        ∀ freq, (t'.bands.matching freq).map Fin.val =
          (List.range s.size).filter fun i => s.bands[i]?.any (·.contains freq))
        tallies installed ∧
      s.installing installed = (.ok (), installed)) ∧
    (20 < s.size → s.installing tallies = (.error .outOfBounds, tallies)) := by
  constructor
  · intro hsize
    obtain ⟨table, htable, hcopies⟩ := BandTable.copies_ofSpectrum hsize
    have hinstalling (ts : List Tally) :
        s.installing ts = (.ok (), ts.map fun t => { t with bands := table }) := by
      rw [installing, htable]
    refine ⟨_, hinstalling tallies, ?_, ?_⟩
    · rw [List.forall₂_map_right_iff, List.forall₂_same]
      exact fun t _ => ⟨rfl, hcopies, hcopies.matching_eq hsize⟩
    · rw [hinstalling, List.map_map]
      rfl
  · intro hsize
    have hfault : BandTable.ofSpectrum s = .error .outOfBounds := if_pos hsize
    rw [installing, hfault]

/-- Bands as a document may have them: the second one starts below the first and ends in it. -/
def crossed : Spectrum := ⟨[.blank 3 5 0, .blank 1 4 0]⟩

/-- Tallies that have had three bands. -/
def wider : List Tally :=
  [{ Tally.blank 7 8 with bands := .ofEdges 3 [(1, 2), (2, 3), (3, 9)] }]

/-- The third slot is emptied, a frequency in both bands matches both, and one band too many
is refused. -/
theorem installing_copies_crossed :
    (∃ t, crossed.installing wider = (.ok (), [t]) ∧ t.bands.count = 2 ∧
      t.bands.slots.get ⟨2, by decide⟩ = ⟨0, 0⟩ ∧
      (t.bands.matching 3.5).map Fin.val = [0, 1] ∧ (t.bands.matching 2).map Fin.val = [1] ∧
      crossed.installing [t] = (.ok (), [t])) ∧
    (⟨List.replicate 21 (.blank 1 4 0)⟩ : Spectrum).installing wider =
      (.error .outOfBounds, wider) := by
  obtain ⟨installed, hrun, hall, hagain⟩ := (installing_copies crossed wider).1 (by decide)
  refine ⟨?_, (installing_copies _ wider).2 (by decide)⟩
  cases hall with
  | cons h hnone =>
      cases hnone
      obtain ⟨-, hcopies, hmatching⟩ := h
      refine ⟨_, hrun, hcopies.count, hcopies.unused _ (by decide), ?_, ?_, hagain⟩
      · exact (hmatching 3.5).trans (by decide +kernel)
      · exact (hmatching 2).trans (by decide +kernel)

end Spectrum

end StellarWind
