import StellarWind.Proofs.Number.Order
import StellarWind.Proofs.Survey.Running

/-!
# When sampling fails

The ranges that a segment is drawn from are fixed, except for that of its frequency, which
has the logarithms of two settings as its ends. The check of settings compares the settings
themselves, and so does the sampler before it draws. Main statement: with checked settings
either every attempt to sample gives a segment or none does, and which of them happens is
up to the two logarithms.
-/

namespace StellarWind

namespace Sampler

variable {γ : Type} [Elementary] [RandomSource γ]

/-! ## Attempt after attempt

A failed attempt leaves a sampler that another attempt can be made with. It has the same
frequencies, and these alone decide.
-/

/-- Try to sample a segment in each of the given cells, also after an attempt has failed. -/
def attempts : List Cell → Sampler γ → List (Except Fault Segment) × Sampler γ
  | [], s => ([], s)
  | c :: cells, s =>
    let (outcome, mid) := run (sample c) s
    let (outcomes, s') := attempts cells mid
    (outcome :: outcomes, s')

theorem attempts_cons (c : Cell) (cells : List Cell) (s : Sampler γ) :
    attempts (c :: cells) s = ((run (sample c) s).1 :: (attempts cells (run (sample c) s).2).1,
      (attempts cells (run (sample c) s).2).2) := rfl

theorem length_attempts (cells : List Cell) (s : Sampler γ) :
    (attempts cells s).1.length = cells.length := by
  induction cells generalizing s with
  | nil => rfl
  | cons c cells ih => rw [attempts_cons, List.length_cons, List.length_cons, ih]

theorem next_attempts (cells : List Cell) (s : Sampler γ) :
    (attempts cells s).2.next ≤ s.next + cells.length := by
  induction cells generalizing s with
  | nil => exact Nat.le_refl _
  | cons c cells ih =>
      obtain ⟨_, _, s', hrun, htook, -, -⟩ := run_sample c s
      have hstep := htook.next_le
      have hrest := ih s'
      rw [attempts_cons, hrun, List.length_cons]
      dsimp only
      omega

/-- No attempt changes the frequencies, so that every later one fares like the first. -/
theorem attempts_outcome (cells : List Cell) (s : Sampler γ) :
    ∀ r ∈ (attempts cells s).1,
      (s.Steady → ∃ segment, r = .ok segment) ∧ (¬ s.Steady → r = .error .emptyRange) := by
  induction cells generalizing s with
  | nil => exact List.forall_mem_nil _
  | cons c cells ih =>
      obtain ⟨_, _, s', hrun, htook, hok, hfault⟩ := run_sample c s
      rw [attempts_cons, hrun, List.forall_mem_cons]
      refine ⟨⟨fun hs => ?_, hfault⟩, ?_⟩
      · obtain ⟨segment, h, -⟩ := hok hs
        exact ⟨segment, h⟩
      · simpa only [htook.steady_iff] using ih s'

end Sampler

/-! ## Checked settings

Settings pass their check only if the first frequency is below the second. Then a frequency has to
be drawn, between the two logarithms. What the check does not see is that these may be equal, not
finite, or too far apart for their difference to be finite.
-/

namespace Survey

open Sampler (attempts ofSource)

section

variable {γ : Type} [Elementary] {s : Settings}

theorem freqMin_lt_freqMax_of_check (h : s.check = .ok ()) : s.freqMin < s.freqMax := by
  by_contra hlt
  have hrefused : (!(s.freqMin > 0 && s.freqMax > s.freqMin)) = true := by simp [hlt]
  rw [Settings.check, if_pos hrefused] at h
  split at h <;> cases h

omit [Elementary] in
theorem isRange_iff {a b : Float} : Draw.isRange false a b = true ↔
    a < b ∧ a.isFinite = true ∧ b.isFinite = true ∧ (b - a).isFinite = true := by
  simp [Draw.isRange, and_assoc]

/-- The first frequency is below the second, so that one is drawn. -/
theorem steady_ofSource_iff (hcheck : s.check = .ok ()) (source : γ) :
    (ofSource source s.freqMin s.freqMax).Steady ↔
      Elementary.log s.freqMin < Elementary.log s.freqMax ∧
        (Elementary.log s.freqMin).isFinite = true ∧ (Elementary.log s.freqMax).isFinite = true ∧
        (Elementary.log s.freqMax - Elementary.log s.freqMin).isFinite = true := by
  have hone : ¬ s.freqMax ≤ s.freqMin := Double.not_le_of_lt (freqMin_lt_freqMax_of_check hcheck)
  rw [← isRange_iff]
  exact or_iff_right hone

/-- With checked settings every attempt to sample gives a segment, whatever the source and the
cells are, if the logarithms of the frequencies are in order, finite and a finite distance
apart. If they are not, no attempt does. At most one number of a packet is taken by each
attempt. -/
theorem attempts_all_or_none [RandomSource γ] (hcheck : s.check = .ok ()) (source : γ)
    (cells : List Cell) :
    (attempts cells (ofSource source s.freqMin s.freqMax)).1.length = cells.length ∧
      (attempts cells (ofSource source s.freqMin s.freqMax)).2.next ≤ cells.length ∧
      ∀ outcome ∈ (attempts cells (ofSource source s.freqMin s.freqMax)).1,
        if Elementary.log s.freqMin < Elementary.log s.freqMax ∧
            (Elementary.log s.freqMin).isFinite = true ∧
            (Elementary.log s.freqMax).isFinite = true ∧
            (Elementary.log s.freqMax - Elementary.log s.freqMin).isFinite = true
        then ∃ segment, outcome = .ok segment else outcome = .error .emptyRange := by
  have hnext := Sampler.next_attempts cells (ofSource source s.freqMin s.freqMax)
  refine ⟨Sampler.length_attempts _ _, by rwa [ofSource, Nat.zero_add] at hnext, ?_⟩
  intro outcome hmem
  obtain ⟨hok, hfault⟩ := Sampler.attempts_outcome _ _ outcome hmem
  rw [steady_ofSource_iff hcheck] at hok hfault
  split
  · exact hok ‹_›
  · exact hfault ‹_›

/-- All cells of a small site fail alike if the logarithms are no range. -/
theorem attempts_whole [RandomSource γ] (hcheck : s.check = .ok ())
    (hn : s.mesh.cellCount < Count.positive32) (hshares : s.workers < Plan.shareLimit)
    (hrange : Draw.isRange false (Elementary.log s.freqMin) (Elementary.log s.freqMax) = false)
    (source : γ) :
    ∃ site, Site.build [s.mesh] s.workers = .ok site ∧
      (attempts site.whole.cells (ofSource source s.freqMin s.freqMax)).1 =
        List.replicate s.mesh.cellCount (.error .emptyRange) := by
  obtain ⟨hworkers, hmesh, -⟩ := parts_of_check hcheck
  obtain ⟨site, heven, hsite⟩ := Site.exists_build hworkers hmesh hn
  rw [if_pos hshares] at hsite
  have hsteady : ¬ (ofSource source s.freqMin s.freqMax).Steady := by
    rw [steady_ofSource_iff hcheck, ← isRange_iff, hrange]
    decide
  refine ⟨site, hsite, List.eq_replicate_iff.mpr ⟨?_, fun outcome hmem => ?_⟩⟩
  · rw [Sampler.length_attempts, heven.whole, Grid.length_definedOn, heven.length]
  · exact (Sampler.attempts_outcome _ _ outcome hmem).2 hsteady

end

theorem attempts_all_or_none_idleThird :
    letI : Elementary := charted
    idleThird.check = .ok () ∧
      ∃ segment, (attempts [.blank 0 3 3] (ofSource (ChaCha.ofSeed 1) idleThird.freqMin
        idleThird.freqMax)).1 = [.ok segment] := by
  let _ : Elementary := charted
  have hcheck : idleThird.check = .ok () := eq_ok_of_isOk (by decide +kernel)
  have hrange := isRange_iff.mp (show Draw.isRange false (Elementary.log idleThird.freqMin)
    (Elementary.log idleThird.freqMax) = true by decide +kernel)
  obtain ⟨hlength, -, hall⟩ := attempts_all_or_none hcheck (ChaCha.ofSeed 1) [.blank 0 3 3]
  obtain ⟨outcome, hone⟩ := List.length_eq_one_iff.mp hlength
  have houtcome := hall outcome (by rw [hone]; exact List.mem_singleton_self outcome)
  rw [if_pos hrange] at houtcome
  obtain ⟨segment, rfl⟩ := houtcome
  exact ⟨hcheck, segment, hone⟩

/-! ### Settings that cannot be sampled from

The check compares frequencies, and the draw is between their logarithms.
-/

/-- Neighbouring frequencies. -/
def neighbours : Settings := { idleThird with freqMin := 1e15, freqMax := besidePeta }

/-- Frequencies without an upper limit. -/
def endless : Settings := { idleThird with freqMax := infinity }

/-- The settings pass their check, and none of the two cells of their mesh can be sampled. -/
def Unsampled [Elementary] (s : Settings) : Prop :=
  s.check = .ok () ∧ ∃ site, Site.build [s.mesh] s.workers = .ok site ∧
    (attempts site.whole.cells (ofSource (ChaCha.ofSeed 1) s.freqMin s.freqMax)).1 =
      [.error .emptyRange, .error .emptyRange]

/-- The check of settings that give the edges of the bands asks for no elementary function. -/
theorem check_eq_check {s : Settings} {edges : List Float} {part : Float} (e e' : Elementary)
    (h : s.recipe = .edges edges part) : @Settings.check e s = @Settings.check e' s := by
  simp only [Settings.check, Settings.spectrum, h, Spectrum.Recipe.build]

/-- Settings that pass their check cannot be sampled from where neighbouring frequencies have
one logarithm, or an infinite frequency has an infinite one. Both are so for the charted values
of the logarithm. -/
theorem checked_attempts_fail :
    (∀ [Elementary], Elementary.log besidePeta = Elementary.log 1e15 → Unsampled neighbours) ∧
      (∀ [Elementary], Elementary.log infinity = infinity → Unsampled endless) ∧
      charted.log besidePeta = charted.log 1e15 ∧ charted.log infinity = infinity := by
  refine ⟨fun [e : Elementary] hlog => ?_, fun [e : Elementary] hlog => ?_, rfl, rfl⟩
  · have hcheck : neighbours.check = .ok () :=
      (check_eq_check e charted rfl).trans (eq_ok_of_isOk (by decide +kernel))
    refine ⟨hcheck, attempts_whole hcheck (by decide) (by decide) ?_ _⟩
    show Draw.isRange false (Elementary.log 1e15) (Elementary.log besidePeta) = false
    rw [hlog, Bool.eq_false_iff, ne_eq, isRange_iff]
    exact fun h => Double.lt_irrefl _ h.1
  · have hcheck : endless.check = .ok () :=
      (check_eq_check e charted rfl).trans (eq_ok_of_isOk (by decide +kernel))
    refine ⟨hcheck, attempts_whole hcheck (by decide) (by decide) ?_ _⟩
    show Draw.isRange false (Elementary.log 1e14) (Elementary.log infinity) = false
    rw [hlog, Bool.eq_false_iff, ne_eq, isRange_iff]
    exact fun h => absurd h.2.2.1 (by decide)

end Survey

end StellarWind
