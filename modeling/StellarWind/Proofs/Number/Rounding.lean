import StellarWind.Proofs.Number.Value

/-!
# Rounding to doubles

A result is computed as a significand with two more bits, which say where the exact number
lies between this significand and the next (`Describes`). Shifting keeps that, and rounding
gives a significand `r` for an exponent `e` that is at most half a unit of the last place
away (`Rounds`). So no double is nearer to the exact number, and the error is small against
the number unless this is below all full significands. Sums and quotients are rounded so.
-/

namespace StellarWind

namespace Double

open Float.Model (UnpackedFloat Format totalExponent)
open Float.Model.UnpackedFloat (Sign Accuracy ExtendedMantissa)

/-! ## Significands with two more bits

Of the two bits the first is worth a half, and the second says that there is something more. Both
are needed to know on which side of the middle a number lies, and a shift by one place keeps them
right.
-/

/-- Where a number lies, by a significand and the two bits behind it. -/
def Describes : ExtendedMantissa → ℚ → Prop
  | ⟨m, false, false⟩, q => q = m
  | ⟨m, false, true⟩, q => m < q ∧ q < m + 1 / 2
  | ⟨m, true, false⟩, q => q = m + 1 / 2
  | ⟨m, true, true⟩, q => m + 1 / 2 < q ∧ q < m + 1

namespace Describes

variable {em : ExtendedMantissa} {q : ℚ}

theorem bounds (h : Describes em q) : em.mantissa ≤ q ∧ q < em.mantissa + 1 := by
  obtain ⟨m, _ | _, _ | _⟩ := em <;> simp only [Describes] at h ⊢ <;> constructor <;> linarith

theorem shiftRightOne (h : Describes em q) : Describes em.shiftRightOne (q / 2) := by
  obtain ⟨m, r, s⟩ := em
  have hparts : (m : ℚ) = 2 * (m / 2 : ℕ) + (m % 2 : ℕ) := by
    exact_mod_cast (Nat.div_add_mod m 2).symm
  -- The last bit of the significand is the first of the two bits now.
  rcases Nat.mod_two_eq_zero_or_one m with hbit | hbit
  · have hround : (m % 2 != 0) = false := by rw [hbit]; rfl
    rw [hbit, Nat.cast_zero] at hparts
    cases r <;> cases s <;>
      simp only [Describes, ExtendedMantissa.shiftRightOne, hround, Bool.or_true, Bool.or_false]
        at h ⊢
    · linarith
    all_goals exact ⟨by linarith, by linarith⟩
  · have hround : (m % 2 != 0) = true := by rw [hbit]; rfl
    rw [hbit, Nat.cast_one] at hparts
    cases r <;> cases s <;>
      simp only [Describes, ExtendedMantissa.shiftRightOne, hround, Bool.or_true, Bool.or_false]
        at h ⊢
    · linarith
    all_goals exact ⟨by linarith, by linarith⟩

theorem shiftRight (h : Describes em q) (n : ℕ) : Describes (em >>> n) (q / 2 ^ n) := by
  induction n with
  | zero =>
      rw [pow_zero, div_one]
      exact h
  | succ n ih =>
      rw [pow_succ, ← div_div]
      exact ih.shiftRightOne

theorem abs_rounded_sub_le (h : Describes em q) : |(em.roundedMantissa : ℚ) - q| ≤ 1 / 2 := by
  obtain ⟨m, _ | _, _ | _⟩ := em <;>
    simp only [Describes] at h <;>
    simp only [ExtendedMantissa.roundedMantissa, ExtendedMantissa.accuracy,
      Accuracy.roundToNearestEven] <;>
    rw [abs_le]
  · constructor <;> linarith
  · constructor <;> linarith
  · rcases Nat.mod_two_eq_zero_or_one m with hbit | hbit <;> rw [hbit] <;> push_cast <;>
      constructor <;> linarith
  · push_cast
    constructor <;> linarith

end Describes

theorem mantissa_ofMantissaAndAccuracy (m : ℕ) (acc : Accuracy) :
    (ExtendedMantissa.ofMantissaAndAccuracy m acc).mantissa = m := by
  obtain _ | _ | _ | _ := acc <;> rfl

/-! ## Rounded numbers

What is used of rounding later is only that `Rounds` holds: half a unit of error, and a unit that
belongs to the size of the number. From this no multiple of the unit is nearer, then no double is,
and the relative error is bounded wherever the unit is not the least one.
-/

/-- A number is rounded to `r` units of `2 ^ e`, where the unit is the one of the numbers
around it. -/
structure Rounds (q : ℚ) (r : ℕ) (e : ℤ) : Prop where
  near : |r * 2 ^ e - q| ≤ 2 ^ e / 2
  least : -1074 ≤ e
  above : e = -1074 ∨ 2 ^ (e + 52) ≤ q
  below : q < 2 ^ (e + 53)

/-- The parts of a number of units. One unit too many for a significand makes it a power of
two of twice the unit. -/
def rounded (s : Sign) (r : ℕ) (e : ℤ) : UnpackedFloat :=
  if h : r = 0 then .zero s
  else if r < 2 ^ 53 then .finite s r e (Nat.pos_of_ne_zero h)
  else .finite s (2 ^ 52) (e + 1) (by decide)

namespace Rounds

variable {q : ℚ} {r : ℕ} {e : ℤ}

theorem le (h : Rounds q r e) : r ≤ 2 ^ 53 := by
  have hnear := (abs_le.mp h.near).2
  have hbelow := h.below
  rw [two_zpow_add] at hbelow
  have hlt : (r : ℚ) * 2 ^ e < (2 ^ 53 + 1) * 2 ^ e := by
    have hpos := two_zpow_pos e
    rw [add_mul]
    norm_num at hbelow ⊢
    linarith
  have hlt := lt_of_mul_lt_mul_right hlt (two_zpow_pos e).le
  exact Nat.lt_succ_iff.mp (by exact_mod_cast hlt)

theorem full (h : Rounds q r e) : 2 ^ 52 ≤ r ∨ e = -1074 := by
  refine h.above.symm.imp_left fun habove => ?_
  have hnear := (abs_le.mp h.near).1
  rw [two_zpow_add] at habove
  have hlt : (2 : ℚ) ^ 52 * 2 ^ e < (r + 1) * 2 ^ e := by
    have hpos := two_zpow_pos e
    rw [add_mul]
    norm_num at habove ⊢
    linarith
  have hlt := lt_of_mul_lt_mul_right hlt (two_zpow_pos e).le
  exact Nat.lt_succ_iff.mp (by exact_mod_cast hlt)

/-- No number of units is nearer. -/
theorem nearest_multiple (h : Rounds q r e) (k : ℤ) : |r * 2 ^ e - q| ≤ |k * 2 ^ e - q| := by
  by_cases hk : k = r
  · rw [hk, Int.cast_natCast]
  · have happart : (1 : ℚ) ≤ |(k : ℚ) - r| := by
      exact_mod_cast Int.one_le_abs (sub_ne_zero.mpr hk)
    have hgap : (2 : ℚ) ^ e ≤ |(k : ℚ) * 2 ^ e - r * 2 ^ e| := by
      rw [← sub_mul, abs_mul, abs_of_pos (two_zpow_pos e)]
      exact le_mul_of_one_le_left (two_zpow_pos e).le happart
    have htriangle := abs_sub_le (k * 2 ^ e : ℚ) q (r * 2 ^ e)
    have hnear := h.near
    rw [abs_sub_comm q] at htriangle
    linarith

/-- No double is nearer. -/
theorem nearest (h : Rounds q r e) {u : UnpackedFloat} (hu : IsSize u) :
    |r * 2 ^ e - q| ≤ |valueOf u - q| := by
  cases hu with
  | zero s => simpa [valueOf] using h.nearest_multiple 0
  | @finite m f hm hc he =>
      rw [valueOf_positive]
      by_cases hef : e ≤ f
      · have hmultiple : (m : ℚ) * 2 ^ f = ((m * 2 ^ (f - e).toNat : ℕ) : ℤ) * 2 ^ e := by
          push_cast
          rw [mul_assoc, ← zpow_natCast, Int.toNat_of_nonneg (by omega), ← two_zpow_add,
            sub_add_cancel]
        rw [hmultiple]
        exact h.nearest_multiple _
      · -- The other double is below a power of two that the number has reached.
        have habove := h.above.resolve_left (by have := hc.least; omega)
        have hpower := h.nearest_multiple (2 ^ 52)
        have hunits : ((2 ^ 52 : ℤ) : ℚ) * 2 ^ e = 2 ^ (e + 52) := by
          rw [two_zpow_add, mul_comm]
          norm_num
        have hbelow : (m : ℚ) * 2 ^ f ≤ 2 ^ (e + 52) := by
          have hm : (m : ℚ) ≤ 2 ^ 53 := by exact_mod_cast hc.below.le
          calc (m : ℚ) * 2 ^ f ≤ 2 ^ 53 * 2 ^ f := by gcongr
            _ = 2 ^ (f + 53) := by rw [two_zpow_add, mul_comm]; rfl
            _ ≤ 2 ^ (e + 52) := two_zpow_le (by omega)
        rw [hunits, abs_of_nonpos (sub_nonpos.mpr habove)] at hpower
        rw [abs_of_nonpos (a := (m : ℚ) * 2 ^ f - q) (by linarith)]
        linarith

/-! ### The error of rounding

It is at most half a unit of the last place. This is small relative to a number whose significand is
full, and a multiple of the least double has no error otherwise.
-/

theorem unit_le (habove : 2 ^ (e + 52) ≤ q) : (2 : ℚ) ^ e / 2 ≤ q / 2 ^ 53 := by
  rw [two_zpow_add] at habove
  norm_num at habove ⊢
  linarith

theorem error (h : Rounds q r e) (hq : 0 ≤ q) :
    |r * 2 ^ e - q| ≤ q / 2 ^ 53 + 2 ^ (-1075 : ℤ) := by
  refine h.near.trans ?_
  rcases h.above with rfl | habove
  · have hleast : (2 : ℚ) ^ (-1074 : ℤ) / 2 = 2 ^ (-1075 : ℤ) := by
      rw [show (-1074 : ℤ) = -1075 + 1 by rfl, zpow_add_one₀ (by norm_num),
        mul_div_cancel_right₀ _ (by norm_num)]
    rw [hleast]
    exact le_add_of_nonneg_left (by positivity)
  · exact (unit_le habove).trans (le_add_of_nonneg_right (two_zpow_pos _).le)

/-- A multiple of the least double is rounded with a small relative error, however small. -/
theorem error_of_multiple (h : Rounds q r e) (hq : 0 ≤ q) {k : ℤ} (hk : q = k * 2 ^ (-1074 : ℤ)) :
    |r * 2 ^ e - q| ≤ q / 2 ^ 53 := by
  rcases h.above with rfl | habove
  · have hexact := h.nearest_multiple k
    rw [← hk, sub_self, abs_zero] at hexact
    exact hexact.trans (by positivity)
  · exact h.near.trans (unit_le habove)

/-- A rounded number is a double with its value, or too large for one. -/
theorem repack_rounded (h : Rounds q r e) :
    (IsSize (repack (rounded .positive r e)) ∧
        valueOf (repack (rounded .positive r e)) = r * 2 ^ e) ∨
      repack (rounded .positive r e) = .infinity .positive ∧ 2 ^ (1023 : ℤ) ≤ q := by
  have hlarge (he : 971 ≤ e) : (2 : ℚ) ^ (1023 : ℤ) ≤ q :=
    calc (2 : ℚ) ^ (1023 : ℤ) ≤ 2 ^ (e + 52) := two_zpow_le (by omega)
      _ ≤ q := h.above.resolve_left (by omega)
  rcases Nat.lt_or_eq_of_le h.le with hlt | rfl
  · by_cases hz : r = 0
    · subst hz
      rw [show rounded .positive 0 e = .zero .positive from rfl, repack_zero]
      exact .inl ⟨.zero _, by simp [valueOf]⟩
    · have hparts : rounded .positive r e = .finite .positive r e (Nat.pos_of_ne_zero hz) := by
        rw [rounded, dif_neg hz, if_pos hlt]
      have hc : Canonical r e := ⟨hlt, h.least, h.full⟩
      rw [hparts]
      by_cases he : e ≤ 971
      · rw [repack_finite _ hc he]
        exact .inl ⟨.finite _ hc he, rfl⟩
      · exact .inr ⟨repack_beyond _ (by omega), hlarge (by omega)⟩
  · -- The significand was rounded up to a power of two, and the exponent goes up for it.
    have hparts : rounded .positive (2 ^ 53) e = .finite .positive (2 ^ 52) (e + 1) (by decide) :=
      rfl
    have hc : Canonical (2 ^ 52) (e + 1) := ⟨by decide, by have := h.least; omega, .inl le_rfl⟩
    rw [hparts]
    by_cases he : e + 1 ≤ 971
    · rw [repack_finite _ hc he]
      refine .inl ⟨.finite _ hc he, ?_⟩
      rw [valueOf_positive, zpow_add_one₀ (by norm_num)]
      push_cast
      ring
    · exact .inr ⟨repack_beyond _ (by omega), hlarge (by omega)⟩

end Rounds

/-! ## The rounding of a described number

A significand is shifted to the exponent that its length asks for, rounded there, and shifted once
more in case that rounding has made it one bit longer. The lemmas follow these three steps.
-/

theorem targetExponent_binary64 (k : ℤ) :
    Format.binary64.targetExponent k = max (k - 53) (-1074) := by
  have hbits : (Format.binary64.mantissaBits : ℤ) = 53 := by decide
  have hmin : Format.binary64.minExponent = -1074 := by decide
  rw [Format.targetExponent, hbits, hmin]

theorem targetExponent_totalExponent (m : ℕ) (e : ℤ) :
    Format.binary64.targetExponent (totalExponent m e) = max (m.log2 + e - 52) (-1074) := by
  rw [targetExponent_binary64, totalExponent]
  congr 1
  ring

theorem shiftToTargetExponent_eq {m : ℕ} {e t : ℤ} (acc : Accuracy)
    (ht : t = max (m.log2 + e - 52) (-1074)) :
    UnpackedFloat.shiftToTargetExponent Format.binary64 m e acc =
      (ExtendedMantissa.ofMantissaAndAccuracy m acc >>> (t - e).toNat, max e t) := by
  unfold UnpackedFloat.shiftToTargetExponent UnpackedFloat.shiftToExponent
  rw [targetExponent_totalExponent, ← ht]
  refine Prod.ext rfl ?_
  dsimp only
  omega

/-- Shifted to the exponent that it should have, a significand is rounded. -/
theorem rounds_shift {m : ℕ} {e t : ℤ} {acc : Accuracy} {q : ℚ}
    (ht : t = max (m.log2 + e - 52) (-1074)) (he : e ≤ t)
    (h : Describes (.ofMantissaAndAccuracy m acc) (q / 2 ^ e)) :
    Rounds q (ExtendedMantissa.ofMantissaAndAccuracy m acc >>> (t - e).toNat).roundedMantissa
      t := by
  obtain ⟨hlower, hupper⟩ := h.bounds
  rw [mantissa_ofMantissaAndAccuracy, le_div_iff₀ (two_zpow_pos e)] at hlower
  rw [mantissa_ofMantissaAndAccuracy, div_lt_iff₀ (two_zpow_pos e)] at hupper
  have hnear := (h.shiftRight (t - e).toNat).abs_rounded_sub_le
  have hunit : (2 : ℚ) ^ e * 2 ^ (t - e).toNat = 2 ^ t := by
    rw [← zpow_natCast, Int.toNat_of_nonneg (by omega), ← two_zpow_add, add_sub_cancel]
  rw [div_div, hunit] at hnear
  generalize (ExtendedMantissa.ofMantissaAndAccuracy m acc >>> (t - e).toNat).roundedMantissa = r
    at hnear
  refine ⟨?_, by omega, ?_, ?_⟩
  · -- Half a unit of the rounded significand is half of `2 ^ t`.
    calc |r * 2 ^ t - q| = |(r - q / 2 ^ t) * 2 ^ t| := by
          rw [sub_mul, div_mul_cancel₀ _ (two_zpow_pos t).ne']
      _ = |r - q / 2 ^ t| * 2 ^ t := by rw [abs_mul, abs_of_pos (two_zpow_pos t)]
      _ ≤ 1 / 2 * 2 ^ t := by gcongr
      _ = 2 ^ t / 2 := by ring
  · by_cases hm : m = 0
    · rw [hm, Nat.log2_zero] at ht
      omega
    · have hlog : (2 : ℚ) ^ m.log2 ≤ m := by exact_mod_cast Nat.log2_self_le hm
      by_cases hleast : t = -1074
      · exact .inl hleast
      · refine .inr ?_
        calc (2 : ℚ) ^ (t + 52) = 2 ^ m.log2 * 2 ^ e := by
              rw [← zpow_natCast, ← two_zpow_add]
              congr 1
              omega
          _ ≤ m * 2 ^ e := by gcongr
          _ ≤ q := hlower
  · -- The two bits are worth less than one, so that the power of two above is not reached.
    have hlog : (m : ℚ) + 1 ≤ 2 ^ (m.log2 + 1) := by exact_mod_cast Nat.lt_log2_self (n := m)
    calc q < (m + 1) * 2 ^ e := hupper
      _ ≤ 2 ^ (m.log2 + 1) * 2 ^ e := by gcongr
      _ = 2 ^ (m.log2 + 1 + e) := by
          rw [← zpow_natCast, ← two_zpow_add]
          push_cast
          rfl
      _ ≤ 2 ^ (t + 53) := two_zpow_le (by omega)

theorem shift_fitting {r : ℕ} {e : ℤ} (hr : r < 2 ^ 53) (he : -1074 ≤ e) :
    UnpackedFloat.shiftToTargetExponent Format.binary64 r e .exact = (⟨r, false, false⟩, e) := by
  have hlog : r.log2 ≤ 52 := by
    by_cases hz : r = 0
    · rw [hz, Nat.log2_zero]
      omega
    · exact Nat.lt_succ_iff.mp ((Nat.log2_lt hz).mpr hr)
  have hshift : (max (r.log2 + e - 52) (-1074) - e).toNat = 0 := by omega
  rw [shiftToTargetExponent_eq .exact rfl, hshift, max_eq_left (by omega)]
  rfl

theorem shift_carried {e : ℤ} (he : -1074 ≤ e) :
    UnpackedFloat.shiftToTargetExponent Format.binary64 (2 ^ 53) e .exact =
      (⟨2 ^ 52, false, false⟩, e + 1) := by
  have ht : e + 1 = max (((2 ^ 53 : ℕ).log2 : ℤ) + e - 52) (-1074) := by
    rw [Nat.log2_two_pow]
    omega
  rw [shiftToTargetExponent_eq .exact ht, add_sub_cancel_left, max_eq_right (by omega)]
  rfl

theorem exists_roundWithAccuracy {m : ℕ} {e : ℤ} {acc : Accuracy} {q : ℚ} (s : Sign)
    (he : e ≤ max (m.log2 + e - 52) (-1074))
    (h : Describes (.ofMantissaAndAccuracy m acc) (q / 2 ^ e)) :
    ∃ r t, Rounds q r t ∧
      UnpackedFloat.roundWithAccuracy Format.binary64 s m e acc = rounded s r t := by
  have hr := rounds_shift rfl he h
  refine ⟨_, _, hr, ?_⟩
  unfold UnpackedFloat.roundWithAccuracy
  rw [shiftToTargetExponent_eq acc rfl, max_eq_right he]
  dsimp only
  generalize max (m.log2 + e - 52) (-1074) = t at hr ⊢
  generalize (ExtendedMantissa.ofMantissaAndAccuracy m acc >>> (t - e).toNat).roundedMantissa = r
    at hr ⊢
  -- The second shift does something only where rounding has carried.
  rcases Nat.lt_or_eq_of_le hr.le with hlt | rfl
  · rw [shift_fitting hlt hr.least]
    by_cases hz : r = 0
    · rw [rounded, dif_pos hz, dif_pos hz]
    · rw [rounded, dif_neg hz, dif_neg hz, if_pos hlt]
  · rw [shift_carried hr.least]
    rfl

/-! ## Sums

A sum of two finite doubles is computed exactly at the smaller of their exponents and rounded once.
-/

theorem log2_shiftLeft {m : ℕ} (hm : m ≠ 0) (k : ℕ) : (m <<< k).log2 = m.log2 + k := by
  induction k with
  | zero => rfl
  | succ k ih =>
      rw [Nat.shiftLeft_succ, Nat.log2_two_mul (by simp [Nat.shiftLeft_eq, hm]), ih]
      rfl

theorem exists_round {m : ℕ} (hm : 0 < m) (e : ℤ) (s : Sign) :
    ∃ r t, Rounds (m * 2 ^ e) r t ∧ UnpackedFloat.round Format.binary64 s m e = rounded s r t := by
  -- A short significand is first made longer, which is exact.
  obtain ⟨k, hk⟩ : ∃ k, k = (e - max (m.log2 + e - 52) (-1074)).toNat := ⟨_, rfl⟩
  have hround : UnpackedFloat.round Format.binary64 s m e =
      UnpackedFloat.roundWithAccuracy Format.binary64 s (m <<< k) (e - k) .exact := by
    unfold UnpackedFloat.round UnpackedFloat.decreaseExponent
    rw [targetExponent_totalExponent, hk]
  have hvalue : (m : ℚ) * 2 ^ e / 2 ^ (e - k : ℤ) = (m <<< k : ℕ) := by
    rw [Nat.shiftLeft_eq, mul_div_assoc, ← zpow_sub₀ (by norm_num), sub_sub_cancel, zpow_natCast]
    push_cast
    rfl
  rw [hround]
  exact exists_roundWithAccuracy s (by rw [log2_shiftLeft hm.ne']; push_cast; omega) hvalue

theorem add_positive {m n : ℕ} {e f : ℤ} (hm : 0 < m) (hn : 0 < n) :
    ∃ r t, Rounds (m * 2 ^ e + n * 2 ^ f) r t ∧
      UnpackedFloat.add Format.binary64 (.finite .positive m e hm) (.finite .positive n f hn) =
        rounded .positive r t := by
  -- Both are written with the smaller exponent, and the sum is exact before it is rounded.
  obtain ⟨a, ha⟩ : ∃ a, a = min e f := ⟨_, rfl⟩
  obtain ⟨k, hk⟩ : ∃ k, k = m <<< (e - a).toNat + n <<< (f - a).toNat := ⟨_, rfl⟩
  have hpos : 0 < k := by
    rw [hk, Nat.shiftLeft_eq]
    positivity
  have hscale {j : ℕ} {g : ℤ} (hg : a ≤ g) :
      ((j <<< (g - a).toNat : ℕ) : ℚ) * 2 ^ a = j * 2 ^ g := by
    rw [Nat.shiftLeft_eq]
    push_cast
    rw [mul_assoc, ← zpow_natCast, Int.toNat_of_nonneg (by omega), ← two_zpow_add, sub_add_cancel]
  have hvalue : (k : ℚ) * 2 ^ a = m * 2 ^ e + n * 2 ^ f := by
    rw [hk, Nat.cast_add, add_mul, hscale (by omega), hscale (by omega)]
  have hadd : UnpackedFloat.add Format.binary64 (.finite .positive m e hm)
      (.finite .positive n f hn) = UnpackedFloat.round Format.binary64 .positive k a := by
    have hcompare : compare (k : ℤ) 0 = .gt := compare_gt_iff_gt.mpr (by exact_mod_cast hpos)
    show UnpackedFloat.normalize Format.binary64
      ((m <<< (e - min e f).toNat : ℕ) + (n <<< (f - min e f).toNat : ℕ) : ℤ) (min e f)
        .positive = _
    rw [← ha, ← Nat.cast_add, ← hk, UnpackedFloat.normalize, hcompare]
    rfl
  rw [hadd, ← hvalue]
  exact exists_round hpos a .positive

/-! ## Quotients

A quotient is computed with enough bits to be rounded, and its remainder says what the two bits
behind it are.
-/

/-- A quotient and how its remainder compares with half the divisor describe the fraction. -/
theorem describes_div (n : ℕ) {d : ℕ} (hd : 0 < d) :
    Describes (.ofMantissaAndAccuracy (n / d) (UnpackedFloat.accuracyOfFraction (n % d) d))
      ((n : ℚ) / d) := by
  have hpos : (0 : ℚ) < d := by exact_mod_cast hd
  have hparts : (n : ℚ) = (n / d : ℕ) * d + (n % d : ℕ) := by
    exact_mod_cast (Nat.div_add_mod' n d).symm
  have hrest : ((n % d : ℕ) : ℚ) < d := by exact_mod_cast Nat.mod_lt n hd
  -- Nothing is left, or what is left is below, at or above half the divisor.
  unfold UnpackedFloat.accuracyOfFraction
  split
  · rename_i hz
    rw [hz, Nat.cast_zero, add_zero] at hparts
    show (n : ℚ) / d = (n / d : ℕ)
    rw [div_eq_iff hpos.ne']
    exact hparts
  · rename_i hz
    have hz : (0 : ℚ) < (n % d : ℕ) := by exact_mod_cast Nat.pos_of_ne_zero hz
    rcases hhalf : compare (2 * (n % d)) d with _ | _ | _
    · have hhalf : (2 : ℚ) * (n % d : ℕ) < d := by exact_mod_cast compare_lt_iff_lt.mp hhalf
      show ((n / d : ℕ) : ℚ) < n / d ∧ (n : ℚ) / d < (n / d : ℕ) + 1 / 2
      rw [lt_div_iff₀ hpos, div_lt_iff₀ hpos, add_mul]
      constructor <;> linarith
    · have hhalf : (2 : ℚ) * (n % d : ℕ) = d := by exact_mod_cast compare_eq_iff_eq.mp hhalf
      show (n : ℚ) / d = (n / d : ℕ) + 1 / 2
      rw [div_eq_iff hpos.ne', add_mul]
      linarith
    · have hhalf : (d : ℚ) < 2 * (n % d : ℕ) := by exact_mod_cast compare_gt_iff_gt.mp hhalf
      show ((n / d : ℕ) : ℚ) + 1 / 2 < n / d ∧ (n : ℚ) / d < (n / d : ℕ) + 1
      rw [lt_div_iff₀ hpos, div_lt_iff₀ hpos, add_mul, add_mul]
      constructor <;> linarith

/-- A quotient is taken with at least as many bits as it is rounded to. -/
theorem exponent_le_target {m n k : ℕ} {a e : ℤ} (hm : 0 < m) (hn : 0 < n)
    (he : e = min a (max (m.log2 - n.log2 + a - 53) (-1074))) (hk : k = (a - e).toNat) :
    e ≤ max ((m <<< k / n).log2 + e - 52) (-1074) := by
  by_cases hleast : e ≤ -1074
  · omega
  · have hbits : 2 ^ 52 ≤ m <<< k / n := by
      rw [Nat.le_div_iff_mul_le hn, Nat.shiftLeft_eq]
      calc 2 ^ 52 * n ≤ 2 ^ 52 * 2 ^ (n.log2 + 1) := Nat.mul_le_mul_left _ Nat.lt_log2_self.le
        _ = 2 ^ (n.log2 + 53) := by rw [← pow_add]; congr 1; omega
        _ ≤ 2 ^ (m.log2 + k) := Nat.pow_le_pow_right (by decide) (by omega)
        _ = 2 ^ m.log2 * 2 ^ k := pow_add _ _ _
        _ ≤ m * 2 ^ k := Nat.mul_le_mul_right _ (Nat.log2_self_le hm.ne')
    have hlog : 52 ≤ (m <<< k / n).log2 := (Nat.le_log2 (by omega)).mpr hbits
    omega

theorem div_positive {m n : ℕ} {e f : ℤ} (hm : 0 < m) (hn : 0 < n) :
    ∃ r t, Rounds (m * 2 ^ e / (n * 2 ^ f)) r t ∧
      UnpackedFloat.div Format.binary64 (.finite .positive m e hm) (.finite .positive n f hn) =
        rounded .positive r t := by
  -- The exponent `g` of the quotient, and the number `k` of bits that the dividend is extended by.
  obtain ⟨g, hg⟩ : ∃ g : ℤ, g = min (e - f) (max (m.log2 - n.log2 + (e - f) - 53) (-1074)) :=
    ⟨_, rfl⟩
  obtain ⟨k, hk⟩ : ∃ k, k = (e - f - g).toNat := ⟨_, rfl⟩
  have hcore : UnpackedFloat.divCore Format.binary64 m e n f =
      (m <<< k / n, g, UnpackedFloat.accuracyOfFraction (m <<< k % n) n) := by
    have htarget : min (e - f) (Format.binary64.targetExponent
        (totalExponent m e - totalExponent n f)) = g := by
      rw [hg, targetExponent_binary64, totalExponent, totalExponent]
      congr 2
      ring
    unfold UnpackedFloat.divCore
    rw [htarget, hk]
  have hvalue : (m : ℚ) * 2 ^ e / (n * 2 ^ f) / 2 ^ g = (m <<< k : ℕ) / n := by
    have hsplit : (2 : ℚ) ^ e = 2 ^ k * (2 ^ f * 2 ^ g) := by
      rw [← zpow_natCast, ← two_zpow_add, ← two_zpow_add]
      congr 1
      omega
    rw [Nat.shiftLeft_eq, hsplit]
    push_cast
    field_simp
  have hdescribes := describes_div (m <<< k) hn
  rw [← hvalue] at hdescribes
  obtain ⟨r, t, hr, hround⟩ :=
    exists_roundWithAccuracy .positive (exponent_le_target hm hn hg hk) hdescribes
  refine ⟨r, t, hr, ?_⟩
  rw [← hround]
  dsimp only [UnpackedFloat.div]
  rw [hcore]
  rfl

end Double

end StellarWind
