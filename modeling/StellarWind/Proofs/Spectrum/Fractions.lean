import StellarWind.Proofs.Number.Arithmetic
import StellarWind.Proofs.Spectrum.Edges

/-!
# Least shares of photons

Every band asks for a least share of the photons. Shares that are smaller are raised to it,
and then all shares are divided by their sum, which is one and what they were raised by
(`raised`). So the least share is kept only up to this factor, and a band that was raised ends
below its least share. Where no band was raised all of them have theirs.

The shares are doubles. All errors of rounding together are below `1 / 10 ^ 12` of the least
share, however small that is.
-/

namespace StellarWind

namespace Double

variable {q ρ : ℚ} {x y : Float}

/-! ## A small double beside a rounded one

A share may be so small that a unit of its last place is large against it. Its least share `y` is a
double too, and then the quotient is rounded to something that is at least as near as `y` is. That
is how the error stays small against the least share and not only against one.
-/

theorem least_le : (2 : ℚ) ^ (-1075 : ℤ) ≤ 1 / 2 ^ 200 :=
  calc (2 : ℚ) ^ (-1075 : ℤ) ≤ 2 ^ (-200 : ℤ) := two_zpow_le (by decide)
    _ = 1 / 2 ^ 200 := by norm_num

/-- A rounded number is near the exact one, or at least as near as a given small double is. -/
theorem Nearest.abs_scaled_sub_le (h : Nearest q x) (hy : Size y) (hρ : 0 ≤ ρ)
    (hraised : ρ ≤ 20 * value y) :
    |value x * (1 + ρ) - q * (1 + ρ)| ≤
      max (q * (1 + ρ) / 2 ^ 53) |value y - q * (1 + ρ)| + value y / 2 ^ 90 := by
  have hy0 := hy.value_nonneg
  have hone : 0 ≤ 1 + ρ := by linarith
  rw [← sub_mul, abs_mul, abs_of_nonneg hone]
  by_cases hsmall : value y < 1 / 2 ^ 100
  · -- A unit of the last place may be large against such numbers, but `y` is not nearer than `x`.
    have hshift : value y * ρ ≤ value y / 2 ^ 90 := by
      rw [div_eq_mul_one_div]
      gcongr
      linarith
    have htriangle := abs_add_le (value y - q * (1 + ρ)) (value y * ρ)
    rw [abs_of_nonneg (a := value y * ρ) (by positivity)] at htriangle
    calc |value x - q| * (1 + ρ) ≤ |value y - q| * (1 + ρ) :=
          mul_le_mul_of_nonneg_right (h.least y hy) hone
      _ = |value y - q * (1 + ρ) + value y * ρ| := by
          rw [← abs_of_nonneg hone, ← abs_mul, abs_of_nonneg hone]
          congr 1
          ring
      _ ≤ max (q * (1 + ρ) / 2 ^ 53) |value y - q * (1 + ρ)| + value y / 2 ^ 90 := by
          linarith only [htriangle, hshift,
            le_max_right (q * (1 + ρ) / 2 ^ 53) |value y - q * (1 + ρ)|]
  · have herror : |value x - q| ≤ q / 2 ^ 53 + 1 / 2 ^ 200 := by linarith [h.error, least_le]
    have hscaled := mul_le_mul_of_nonneg_right herror hone
    linarith only [hscaled, hsmall, hraised,
      le_max_left (q * (1 + ρ) / 2 ^ 53) |value y - q * (1 + ρ)|]

theorem Nearest.lower (h : Nearest q x) (hy : Size y) (hρ : 0 ≤ ρ)
    (hraised : ρ ≤ 20 * value y) (hq : value y * (1 - 1 / 2 ^ 45) ≤ q * (1 + ρ)) :
    value y * (1 - 1 / 10 ^ 12) ≤ value x * (1 + ρ) := by
  have hy0 := hy.value_nonneg
  have hnear := (abs_le.mp (h.abs_scaled_sub_le hy hρ hraised)).1
  rcases max_cases (q * (1 + ρ) / 2 ^ 53) |value y - q * (1 + ρ)| with ⟨hmax, -⟩ | ⟨hmax, -⟩
  · linarith
  · rcases abs_cases (value y - q * (1 + ρ)) with ⟨habs, -⟩ | ⟨habs, -⟩ <;> linarith

theorem Nearest.upper (h : Nearest q x) (hy : Size y) (hρ : 0 ≤ ρ)
    (hraised : ρ ≤ 20 * value y) (hq : q * (1 + ρ) ≤ value y * (1 + 1 / 2 ^ 44)) :
    value x * (1 + ρ) ≤ value y * (1 + 1 / 10 ^ 12) := by
  have hy0 := hy.value_nonneg
  have hnear := (abs_le.mp (h.abs_scaled_sub_le hy hρ hraised)).2
  rcases max_cases (q * (1 + ρ) / 2 ^ 53) |value y - q * (1 + ρ)| with ⟨hmax, -⟩ | ⟨hmax, -⟩
  · linarith
  · rcases abs_cases (value y - q * (1 + ρ)) with ⟨habs, -⟩ | ⟨habs, -⟩ <;> linarith

end Double

open Double (value Size Infinite Nearest total)

namespace Spectrum

/-! ## Shares of the luminosity

The shares are divided by their sum and add up to one but for rounding. If the sum is infinite all
of them are zero, and their sum is bounded from above only.
-/

section

variable {fractions : List Float}

/-- Quotients that are rounded one by one add up to the quotient of the sum, nearly. -/
theorem abs_total_div_sub_le {d : Float}
    (h : ∀ f ∈ fractions, Nearest (value f / value d) (f / d)) :
    |total (fractions.map (· / d)) - total fractions / value d| ≤
      total fractions / value d / 2 ^ 53 + fractions.length * (1 / 2 ^ 200) := by
  induction fractions with
  | nil => simp [total]
  | cons f fractions ih =>
      rw [List.forall_mem_cons] at h
      have hrest := abs_le.mp (ih h.2)
      have hfirst := abs_le.mp h.1.error
      have hleast := Double.least_le
      rw [List.map_cons, Double.total_cons, Double.total_cons, add_div, List.length_cons, abs_le]
      push_cast
      constructor
      · linarith only [hrest.1, hfirst.1, hleast]
      · linarith only [hrest.2, hfirst.2, hleast]

variable (h : ∀ f ∈ fractions, Size f)

include h

theorem quotients_finite (hlength : fractions.length ≤ bandLimit) (hpos : 0 < total fractions)
    (hsize : Size (sum fractions))
    (hnear : |value (sum fractions) - total fractions| ≤ total fractions / 2 ^ 48) :
    0 < value (sum fractions) ∧ (∀ f ∈ fractions, Size (f / sum fractions)) ∧
      |total (fractions.map (· / sum fractions)) - 1| ≤ 1 / 2 ^ 46 := by
  obtain ⟨hbelow, habove⟩ := abs_le.mp hnear
  have hsum : 0 < value (sum fractions) := by linarith
  have hupper : total fractions / value (sum fractions) ≤ 1 + 1 / 2 ^ 47 := by
    rw [div_le_iff₀ hsum]
    linarith
  have hlower : 1 - 1 / 2 ^ 47 ≤ total fractions / value (sum fractions) := by
    rw [le_div_iff₀ hsum]
    linarith
  -- No quotient is out of range, since none is larger than that of the total.
  have hdiv : ∀ f ∈ fractions, Nearest (value f / value (sum fractions)) (f / sum fractions) := by
    intro f hf
    refine (h f hf).div hsize hsum ?_
    calc value f / value (sum fractions) ≤ total fractions / value (sum fractions) := by
          gcongr
          exact Double.value_le_total h hf
      _ ≤ 1 + 1 / 2 ^ 47 := hupper
      _ < 4 := by norm_num
  have herror := abs_le.mp (abs_total_div_sub_le hdiv)
  have hcount : (fractions.length : ℚ) ≤ 20 := by exact_mod_cast hlength
  refine ⟨hsum, fun f hf => (hdiv f hf).size, abs_le.mpr ⟨?_, ?_⟩⟩
  · linarith only [herror.1, hlower, hupper, hcount]
  · linarith only [herror.2, hlower, hupper, hcount]

theorem quotients_infinite (hinfinite : Infinite (sum fractions)) :
    (∀ f ∈ fractions, Size (f / sum fractions)) ∧
      total (fractions.map (· / sum fractions)) = 0 := by
  refine ⟨fun f hf => ((h f hf).div_infinite hinfinite).1, List.sum_eq_zero ?_⟩
  rw [List.map_map, List.forall_mem_map]
  exact fun f hf => ((h f hf).div_infinite hinfinite).2

theorem quotients_bounds (hlength : fractions.length ≤ bandLimit)
    (hpos : 0 < total fractions) :
    ¬ sum fractions ≤ 0 ∧ (∀ f ∈ fractions, Size (f / sum fractions)) ∧
      total (fractions.map (· / sum fractions)) ≤ 1 + 1 / 2 ^ 46 ∧
      ((sum fractions).isFinite = true →
        1 - 1 / 2 ^ 46 ≤ total (fractions.map (· / sum fractions))) := by
  rcases Double.sum_sizes h hlength with ⟨hsize, hnear⟩ | ⟨hinfinite, -⟩
  · obtain ⟨hsum, hsizes, hone⟩ := quotients_finite h hlength hpos hsize hnear
    obtain ⟨hlower, hupper⟩ := abs_le.mp hone
    refine ⟨?_, hsizes, by linarith, fun _ => by linarith⟩
    rw [hsize.le_iff Double.size_zero, Double.value_zero]
    exact not_le_of_gt hsum
  · obtain ⟨hsizes, hzero⟩ := quotients_infinite h hinfinite
    refine ⟨hinfinite.not_le_zero, hsizes, ?_, fun hfinite => ?_⟩
    · rw [hzero]
      norm_num
    · rw [hinfinite.isFinite] at hfinite
      cases hfinite

end

/-! ## Raised shares

Raising a share adds what it lacks. There are at most twenty of them, and their least shares have
room in one, so that the new sum is finite. Dividing by it then costs each share the factor that
the sum has grown by.
-/

/-- How far a share is below the least one. -/
def shortfall (least share : Float) : ℚ := max 0 (value least - value share)

/-- By how much the shares of the bands are raised to the least ones. -/
def raised (s : Spectrum) : ℚ :=
  (s.bands.map fun b => shortfall b.minFraction b.naturalFraction).sum

/-- A share after it has been divided by the sum of all, if that is positive. -/
def scaled (total x : Float) : Float := if total > 0 then x / total else x

/-- Shares of the luminosity and a least share to raise them to, for which there is room. -/
structure Raisable (m : Float) (xs : List Float) : Prop where
  least : Size m
  sizes : ∀ x ∈ xs, Size x
  length_le : xs.length ≤ bandLimit
  room : xs.length * value m ≤ 1
  total_le : total xs ≤ 1 + 1 / 2 ^ 46

section

variable {m x : Float} {xs : List Float}

theorem value_greatest (hx : Size x) (hm : Size m) :
    value (greatest x m) = value x + shortfall m x := by
  rw [(hx.greatest hm).2, shortfall, ← max_add_add_left, add_zero, add_sub_cancel]

theorem shortfall_bounds (hx : Size x) (hm : Size m) :
    0 ≤ shortfall m x ∧ shortfall m x ≤ value m :=
  ⟨le_max_left _ _, max_le hm.value_nonneg (sub_le_self _ hx.value_nonneg)⟩

theorem shortfall_eq_zero (hx : Size x) (hm : Size m) (h : m ≤ x) : shortfall m x = 0 :=
  max_eq_left (sub_nonpos.mpr ((hm.le_iff hx).mp h))

/-! ### Sums of raised shares

The raised shares add up to the shares and the shortfalls. Rounding changes this by a small part
only, since there are few bands.
-/

namespace Raisable

variable (h : Raisable m xs)

include h

theorem size_greatest : ∀ y ∈ xs.map (greatest · m), Size y :=
  List.forall_mem_map.mpr fun x hx => ((h.sizes x hx).greatest h.least).1

theorem total_greatest :
    total (xs.map (greatest · m)) = total xs + (xs.map (shortfall m)).sum := by
  rw [total, total, ← List.sum_map_add, List.map_map]
  exact congrArg List.sum (List.map_congr_left fun x hx => value_greatest (h.sizes x hx) h.least)

theorem shortfalls_nonneg : 0 ≤ (xs.map (shortfall m)).sum :=
  List.sum_nonneg (List.forall_mem_map.mpr fun x hx =>
    (shortfall_bounds (h.sizes x hx) h.least).1)

theorem shortfalls_le : (xs.map (shortfall m)).sum ≤ xs.length * value m := by
  have hle := List.sum_le_card_nsmul (xs.map (shortfall m)) (value m)
    (List.forall_mem_map.mpr fun x hx => (shortfall_bounds (h.sizes x hx) h.least).2)
  rwa [List.length_map, nsmul_eq_mul] at hle

/-- The sum of the raised shares is the sum of the shares and what they were raised by. -/
theorem sum_greatest : Size (sum (xs.map (greatest · m))) ∧
    |value (sum (xs.map (greatest · m))) - (total xs + (xs.map (shortfall m)).sum)| ≤
      (total xs + (xs.map (shortfall m)).sum) / 2 ^ 48 := by
  have htotal := h.total_greatest
  have hlength : (xs.map (greatest · m)).length ≤ bandLimit := by
    rw [List.length_map]
    exact h.length_le
  rw [← htotal]
  refine (Double.sum_sizes h.size_greatest hlength).resolve_right ?_
  rintro ⟨-, hlarge⟩
  linarith only [hlarge, htotal, h.shortfalls_le, h.room, h.total_le]

/-- A raised share is at least the least one and at most all shares. -/
theorem greatest_bounds (hx : x ∈ xs) : value m ≤ value (greatest x m) ∧
    value (greatest x m) ≤ total xs + (xs.map (shortfall m)).sum := by
  constructor
  · rw [((h.sizes x hx).greatest h.least).2]
    exact le_max_right _ _
  · rw [← h.total_greatest]
    exact Double.value_le_total h.size_greatest (List.mem_map_of_mem hx)

theorem scaled_bounds (hx : x ∈ xs) :
    Size (scaled (sum (xs.map (greatest · m))) (greatest x m)) ∧
      value m * (1 - 1 / 10 ^ 12) ≤
        value (scaled (sum (xs.map (greatest · m))) (greatest x m)) *
          (1 + (xs.map (shortfall m)).sum) ∧
      (1 - 1 / 2 ^ 46 ≤ total xs → x < m →
        value (scaled (sum (xs.map (greatest · m))) (greatest x m)) *
          (1 + (xs.map (shortfall m)).sum) ≤ value m * (1 + 1 / 10 ^ 12)) := by
  obtain ⟨hsum, hnear⟩ := h.sum_greatest
  obtain ⟨hsize, hvalue⟩ := (h.sizes x hx).greatest h.least
  obtain ⟨hleast, hmost⟩ := h.greatest_bounds hx
  have hm := h.least.value_nonneg
  have hρ := h.shortfalls_nonneg
  have hraised : (xs.map (shortfall m)).sum ≤ 20 * value m := by
    have hcount : (xs.length : ℚ) ≤ 20 := by exact_mod_cast h.length_le
    exact h.shortfalls_le.trans (by gcongr)
  have hupper := h.total_le
  have hpositive : sum (xs.map (greatest · m)) > 0 ↔ 0 < value (sum (xs.map (greatest · m))) := by
    rw [← Double.value_zero]
    exact Double.size_zero.lt_iff hsum
  -- From here on these are numbers, and all that is known of them is above.
  generalize (xs.map (shortfall m)).sum = ρ at *
  generalize sum (xs.map (greatest · m)) = d at *
  obtain ⟨hbelow, habove⟩ := abs_le.mp hnear
  have hall : 0 ≤ value m * (1 + ρ) := by positivity
  by_cases hpos : d > 0
  · have hd := hpositive.mp hpos
    have hquotient : Nearest (value (greatest x m) / value d) (greatest x m / d) := by
      refine hsize.div hsum hd ?_
      rw [div_lt_iff₀ hd]
      linarith
    rw [scaled, if_pos hpos]
    refine ⟨hquotient.size, hquotient.lower h.least hρ hraised ?_, fun hlower hlt =>
      hquotient.upper h.least hρ hraised ?_⟩
    · rw [div_mul_eq_mul_div, le_div_iff₀ hd]
      have hdivisor : value m * value d ≤ value m * ((1 + ρ) * (1 + 1 / 2 ^ 45)) := by
        gcongr
        linarith
      have hdividend : value m * (1 + ρ) ≤ value (greatest x m) * (1 + ρ) := by gcongr
      linarith
    · have hlifted : value (greatest x m) = value m := by
        rw [hvalue, max_eq_right (((h.sizes x hx).lt_iff h.least).mp hlt).le]
      rw [hlifted, div_mul_eq_mul_div, div_le_iff₀ hd]
      have hdivisor : value m * ((1 + ρ) * (1 - 1 / 2 ^ 45)) ≤ value m * value d := by
        gcongr
        linarith
      linarith
  · -- Nothing is divided, and for the upper bound the shares would have to add up to one.
    rw [scaled, if_neg hpos]
    refine ⟨hsize, ?_, fun hlower _ => absurd (hpositive.mpr (by linarith)) hpos⟩
    have hproduct := mul_nonneg hsize.value_nonneg hρ
    linarith

end Raisable

end

/-! ## Bands

The same about the bands of a spectrum, which hold the share of the luminosity, the least share and
the share of the photons side by side.
-/

section

variable {s : Spectrum} {m : Float} {fractions : List Float}

theorem normalized_eq (s : Spectrum) : s.normalized = ⟨s.bands.map fun b =>
    { b with usedFraction := scaled (sum (s.bands.map (·.usedFraction))) b.usedFraction }⟩ := by
  unfold normalized scaled
  dsimp only
  split
  · rfl
  · rw [List.map_id']

theorem raised_normalized (s : Spectrum) : s.normalized.raised = s.raised := by
  rw [normalized_eq, raised, raised, List.map_map]
  rfl

/-- The bands have the given shares of the luminosity, and for the photons the same shares
raised to a least one. -/
def Shares (s : Spectrum) (m : Float) (xs : List Float) : Prop :=
  s.bands.map (fun b => (b.minFraction, b.naturalFraction, b.usedFraction)) =
    xs.map fun x => (m, x, greatest x m)

theorem shares_zip {bands : List Band} (hm : ∀ b ∈ bands, b.minFraction = m)
    (hlength : fractions.length = bands.length) (d : Float) :
    Shares ⟨(bands.zip fractions).map fun (b, f) => b.share (f / d)⟩ m
      (fractions.map (· / d)) := by
  unfold Shares
  induction bands generalizing fractions with
  | nil =>
      obtain rfl := List.length_eq_zero_iff.mp hlength
      rfl
  | cons b bands ih =>
      cases fractions with
      | nil => cases hlength
      | cons f fractions =>
          rw [List.forall_mem_cons] at hm
          obtain ⟨rfl, hm⟩ := hm
          rw [List.zip_cons_cons, List.map_cons, List.map_cons, List.map_cons, List.map_cons,
            ih hm (Nat.succ.inj hlength)]
          rfl

namespace Shares

variable {xs : List Float} (h : s.Shares m xs)

include h

theorem length_eq : s.bands.length = xs.length := by
  simpa using congrArg List.length h

theorem used : s.bands.map (·.usedFraction) = xs.map (greatest · m) := by
  simpa [Function.comp_def] using congrArg (List.map fun p => p.2.2) h

theorem raised_eq : s.raised = (xs.map (shortfall m)).sum := by
  have hshares := congrArg (List.map fun p => shortfall p.1 p.2.1) h
  rw [List.map_map, List.map_map] at hshares
  exact congrArg List.sum hshares

theorem of_mem {b : Band} (hb : b ∈ s.bands) :
    b.minFraction = m ∧ b.naturalFraction ∈ xs ∧
      b.usedFraction = greatest b.naturalFraction m := by
  have hmem := List.mem_map_of_mem (f := fun b : Band =>
    (b.minFraction, b.naturalFraction, b.usedFraction)) hb
  rw [h, List.mem_map] at hmem
  obtain ⟨x, hx, heq⟩ := hmem
  obtain ⟨hmin, hrest⟩ := Prod.mk.inj heq
  obtain ⟨rfl, hused⟩ := Prod.mk.inj hrest
  exact ⟨hmin.symm, hx, hused.symm⟩

theorem raised_eq_zero (hr : Raisable m xs)
    (hnone : ∀ b ∈ s.bands, b.minFraction ≤ b.naturalFraction) : s.raised = 0 := by
  refine List.sum_eq_zero (List.forall_mem_map.mpr fun b hb => ?_)
  obtain ⟨hleast, hx, -⟩ := h.of_mem hb
  have hle := hnone b hb
  rw [hleast] at hle ⊢
  exact shortfall_eq_zero (hr.sizes _ hx) hr.least hle

end Shares

/-! ### The least share of a band

Fractions are divided by their sum, raised to the least share and divided by their new sum. The last
step takes away from the least share what the raising has added to the sum.
-/

theorem withFractions_eq (hlength : fractions.length = s.size) (hpos : ¬ sum fractions ≤ 0) :
    s.withFractions fractions =
      normalized ⟨(s.bands.zip fractions).map fun (b, f) => b.share (f / sum fractions)⟩ := by
  have hdrop : s.bands.drop fractions.length = [] := List.drop_eq_nil_of_le hlength.ge
  unfold withFractions
  rw [← hlength, List.take_length]
  dsimp only
  rw [if_neg hpos, hdrop, List.append_nil]

/-- Every band has its least share of the photons but for what all bands together were raised
by. This is at most one, so that half of the least share is always kept, and all of it where no
band was raised. A band that was raised has no more than that. -/
theorem withFractions_floor {edges : List Float} (hs : ofEdges edges m = .ok s)
    (hm : m.isFinite = true ∧ 0 ≤ m) (hone : s.size * value m ≤ 1)
    (hlength : fractions.length = s.size)
    (hfractions : ∀ f ∈ fractions, f.isFinite = true ∧ 0 ≤ f) (hpos : 0 < total fractions) :
    (s.withFractions fractions).size = s.size ∧
      0 ≤ (s.withFractions fractions).raised ∧ (s.withFractions fractions).raised ≤ 1 ∧
      ∀ b ∈ (s.withFractions fractions).bands,
        b.minFraction = m ∧ b.usedFraction.isFinite = true ∧
        value m * (1 - 1 / 10 ^ 12) ≤
          value b.usedFraction * (1 + (s.withFractions fractions).raised) ∧
        ((∀ c ∈ (s.withFractions fractions).bands, c.minFraction ≤ c.naturalFraction) →
          value m * (1 - 1 / 10 ^ 12) ≤ value b.usedFraction) ∧
        ((sum fractions).isFinite = true → b.naturalFraction < m →
          value b.usedFraction * (1 + (s.withFractions fractions).raised) ≤
            value m * (1 + 1 / 10 ^ 12)) := by
  have hmin : ∀ b ∈ s.bands, b.minFraction = m := by
    intro b hb
    obtain ⟨i, hi⟩ := List.getElem?_of_mem hb
    exact ((adjoins_of_ofEdges hs).band i b hi).2.2.2
  have hlimit : fractions.length ≤ bandLimit := hlength.trans_le (size_ofEdges hs)
  obtain ⟨hsum, hsizes, hupper, hlower⟩ :=
    quotients_bounds (fun f hf => Double.size_iff.mpr (hfractions f hf)) hlimit hpos
  have hcount : (fractions.map (· / sum fractions)).length = s.size := by
    rw [List.length_map, hlength]
  -- The quotients nearly add up to one, and there is room to raise each to the least share.
  have hr : Raisable m (fractions.map (· / sum fractions)) :=
    { least := Double.size_iff.mpr hm
      sizes := List.forall_mem_map.mpr hsizes
      length_le := by rwa [List.length_map]
      room := by rwa [hcount]
      total_le := hupper }
  have hshares := shares_zip hmin hlength (sum fractions)
  rw [withFractions_eq hlength hsum, raised_normalized, hshares.raised_eq, normalized_eq]
  refine ⟨?_, hr.shortfalls_nonneg, hr.shortfalls_le.trans hr.room, ?_⟩
  · rw [size, List.length_map, hshares.length_eq, hcount]
  · rw [List.forall_mem_map, hshares.used]
    intro b hb
    obtain ⟨hleast, hx, hused⟩ := hshares.of_mem hb
    obtain ⟨hsize, hfloor, hceiling⟩ := hr.scaled_bounds hx
    dsimp only
    rw [hused]
    refine ⟨hleast, (Double.size_iff.mp hsize).1, hfloor, fun hnone => ?_, fun hfinite =>
      hceiling (hlower hfinite)⟩
    rw [← hshares.raised_eq, hshares.raised_eq_zero hr (List.forall_mem_map.mp hnone), add_zero,
      mul_one] at hfloor
    exact hfloor

end

/-- Two bands that both ask for three tenths, and a luminosity of which one has nearly all. -/
theorem two_bands :
    ∃ s, ofEdges [1, 2, 3] 0.3 = .ok s ∧ s.size = 2 ∧
      (s.withFractions [0.95, 0.05]).bands.map (·.usedFraction) = [0.76, 0.24] := by
  have hfound : (ofEdges [1, 2, 3] 0.3).toOption.map (fun s =>
      (s.size, (s.withFractions [0.95, 0.05]).bands.map (·.usedFraction))) =
        some (2, [0.76, 0.24]) := by decide +kernel
  rcases hs : ofEdges [1, 2, 3] 0.3 with problem | s
  · rw [hs] at hfound
    cases hfound
  · rw [hs] at hfound
    obtain ⟨hsize, hused⟩ := Prod.mk.inj (Option.some.inj hfound)
    exact ⟨s, rfl, hsize, hused⟩

theorem withFractions_floor_two :
    ∃ s, ofEdges [1, 2, 3] 0.3 = .ok s ∧
      (s.withFractions [0.95, 0.05]).size = 2 ∧
      ∀ b ∈ (s.withFractions [0.95, 0.05]).bands,
        value 0.3 * (1 - 1 / 10 ^ 12) ≤
          value b.usedFraction * (1 + (s.withFractions [0.95, 0.05]).raised) := by
  obtain ⟨s, hs, hsize, -⟩ := two_bands
  have hfloor := @withFractions_floor s 0.3 [0.95, 0.05] [1, 2, 3] hs (by decide +kernel)
    (by rw [hsize]; decide +kernel) hsize.symm (by decide +kernel) (by decide +kernel)
  exact ⟨s, hs, hfloor.1.trans hsize, fun b hb => (hfloor.2.2.2 b hb).2.2.1⟩

/-- The second band was raised to its least share and ends with four fifths of it. -/
theorem withFractions_below_floor :
    ∃ s, ofEdges [1, 2, 3] 0.3 = .ok s ∧ s.size = 2 ∧ s.size * value 0.3 ≤ 1 ∧
      (∀ f ∈ [0.95, 0.05], f.isFinite = true ∧ (0 : Float) ≤ f) ∧ 0 < total [0.95, 0.05] ∧
      ∃ b ∈ (s.withFractions [0.95, 0.05]).bands,
        value b.usedFraction < value 0.3 * (1 - 1 / 10 ^ 12) := by
  obtain ⟨s, hs, hsize, hused⟩ := two_bands
  have hmem : (0.24 : Float) ∈ (s.withFractions [0.95, 0.05]).bands.map (·.usedFraction) := by
    rw [hused]
    exact .tail _ (.head _)
  obtain ⟨b, hb, hvalue⟩ := List.mem_map.mp hmem
  refine ⟨s, hs, hsize, by rw [hsize]; decide +kernel, by decide +kernel, by decide +kernel,
    b, hb, ?_⟩
  rw [hvalue]
  decide +kernel

end Spectrum

end StellarWind
