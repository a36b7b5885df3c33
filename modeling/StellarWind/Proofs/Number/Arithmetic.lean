import StellarWind.Proofs.Number.Rounding
import StellarWind.Spectrum.Basic

/-!
# Sums and quotients of doubles

What rounding does to the operations on doubles that are finite and not negative. A sum has a
small relative error or is infinite. A quotient is the nearest double (`Nearest`): it may have
a large relative error where it is very small, but then a double that was near is still near.
The error of a sum of many doubles grows with each addition.
-/

namespace StellarWind

namespace Double

open Float.Model (UnpackedFloat Format)
open Float.Model.UnpackedFloat (Sign)

variable {x y : Float} {u v : UnpackedFloat}

theorem unpack_add (x y : Float) :
    (x + y).toModel.unpack = repack (.add Format.binary64 x.toModel.unpack y.toModel.unpack) := rfl

theorem unpack_div (x y : Float) :
    (x / y).toModel.unpack = repack (.div Format.binary64 x.toModel.unpack y.toModel.unpack) := rfl

/-! ## Infinity

A sum that is too large for a double is infinity. It stays so whatever is added, and shares of it
are zero.
-/

/-- The double that stands for all that is too large. -/
def Infinite (x : Float) : Prop := x.toModel.unpack = .infinity .positive

namespace Infinite

theorem isFinite (h : Infinite x) : x.isFinite = false := by
  show x.toModel.unpack.isFinite = false
  rw [h]
  rfl

theorem not_le_zero (h : Infinite x) : ¬ x ≤ 0 := by
  intro hle
  have hplace := (le_iff.mp hle).2.2
  have hzero : place 0 = placeOf (.zero .positive) := by decide +kernel
  rw [hzero, place, h] at hplace
  simp [placeOf, Prod.Lex.toLex_le_toLex] at hplace

theorem add (hx : Infinite x) (hy : Size y) : Infinite (x + y) := by
  have hparts {v : UnpackedFloat} (hv : IsSize v) :
      UnpackedFloat.add Format.binary64 (.infinity .positive) v = .infinity .positive := by
    cases hv <;> rfl
  rw [Infinite, unpack_add, hx, hparts hy, repack_infinity]

end Infinite

theorem Size.div_infinite (hx : Size x) (hy : Infinite y) : Size (x / y) ∧ value (x / y) = 0 := by
  have hparts {u : UnpackedFloat} (hu : IsSize u) :
      ∃ s, UnpackedFloat.div Format.binary64 u (.infinity .positive) = .zero s := by
    cases hu <;> exact ⟨_, rfl⟩
  obtain ⟨s, hs⟩ := hparts hx
  have hzero : (x / y).toModel.unpack = .zero s := by rw [unpack_div, hy, hs, repack_zero]
  rw [Size, value, hzero]
  exact ⟨.zero s, rfl⟩

/-! ## One sum

Finite doubles are multiples of the least one, and so is their sum. That is why a sum has a small
relative error even where it is very small, other than a quotient.
-/

theorem Canonical.exists_multiple {m : ℕ} {e : ℤ} (hc : Canonical m e) :
    ∃ k : ℕ, (m : ℚ) * 2 ^ e = k * 2 ^ (-1074 : ℤ) := by
  have hleast := hc.least
  refine ⟨m * 2 ^ (e + 1074).toNat, ?_⟩
  rw [Nat.cast_mul, Nat.cast_pow, mul_assoc, Nat.cast_ofNat, ← zpow_natCast,
    Int.toNat_of_nonneg (by omega), ← two_zpow_add, add_neg_cancel_right]

theorem add_sizes (hu : IsSize u) (hv : IsSize v) :
    (IsSize (repack (.add Format.binary64 u v)) ∧
      |valueOf (repack (.add Format.binary64 u v)) - (valueOf u + valueOf v)| ≤
        (valueOf u + valueOf v) / 2 ^ 53) ∨
    repack (.add Format.binary64 u v) = .infinity .positive ∧
      2 ^ (1023 : ℤ) ≤ valueOf u + valueOf v := by
  cases hu with
  | zero s =>
      cases hv with
      | zero t =>
          obtain ⟨w, hw⟩ : ∃ w, repack (.add Format.binary64 (.zero s) (.zero t)) = .zero w := by
            cases s <;> cases t <;> exact ⟨_, repack_zero _⟩
          rw [hw]
          exact .inl ⟨.zero w, by simp [valueOf_zero]⟩
      | @finite m e h hc he =>
          have hadd : repack (.add Format.binary64 (.zero s) (.finite .positive m e h)) =
            .finite .positive m e h := repack_finite h hc he
          rw [hadd, valueOf_zero, zero_add, sub_self, abs_zero, valueOf_positive]
          exact .inl ⟨.finite h hc he, by positivity⟩
  | @finite m e h hc he =>
      cases hv with
      | zero t =>
          have hadd : repack (.add Format.binary64 (.finite .positive m e h) (.zero t)) =
            .finite .positive m e h := repack_finite h hc he
          rw [hadd, valueOf_zero, add_zero, sub_self, abs_zero, valueOf_positive]
          exact .inl ⟨.finite h hc he, by positivity⟩
      | @finite n f h' hc' he' =>
          obtain ⟨r, t, hr, hadd⟩ := add_positive (e := e) (f := f) h h'
          -- Sums of multiples of the least double are such multiples, so that tiny ones are exact.
          obtain ⟨j, hj⟩ := hc.exists_multiple
          obtain ⟨k, hk⟩ := hc'.exists_multiple
          have hmultiple : (m * 2 ^ e + n * 2 ^ f : ℚ) = ((j + k : ℕ) : ℤ) * 2 ^ (-1074 : ℤ) := by
            rw [hj, hk, ← add_mul, Int.cast_natCast, Nat.cast_add]
          rw [hadd, valueOf_positive, valueOf_positive]
          refine hr.repack_rounded.imp_left fun ⟨hsize, hvalue⟩ => ⟨hsize, ?_⟩
          rw [hvalue]
          exact hr.error_of_multiple (by positivity) hmultiple

theorem Size.add (hx : Size x) (hy : Size y) :
    (Size (x + y) ∧ |value (x + y) - (value x + value y)| ≤ (value x + value y) / 2 ^ 53) ∨
      Infinite (x + y) ∧ 2 ^ (1023 : ℤ) ≤ value x + value y := add_sizes hx hy

/-! ## One quotient

A quotient can fall among the very small doubles, where the distance to the next one is large
against the number. What is left there is that no double is nearer than the result.
-/

/-- The double of a number that is not negative: there is none nearer. -/
structure Nearest (q : ℚ) (x : Float) : Prop where
  size : Size x
  error : |value x - q| ≤ q / 2 ^ 53 + 2 ^ (-1075 : ℤ)
  least : ∀ y, Size y → |value x - q| ≤ |value y - q|

theorem div_sizes (hu : IsSize u) (hv : IsSize v) (hpos : 0 < valueOf v)
    (hq : valueOf u / valueOf v < 2 ^ (1023 : ℤ)) :
    ∃ w, repack (.div Format.binary64 u v) = w ∧ IsSize w ∧
      |valueOf w - valueOf u / valueOf v| ≤ valueOf u / valueOf v / 2 ^ 53 + 2 ^ (-1075 : ℤ) ∧
      ∀ z, IsSize z →
        |valueOf w - valueOf u / valueOf v| ≤ |valueOf z - valueOf u / valueOf v| := by
  cases hv with
  | zero t => exact absurd hpos fun h => h.false
  | @finite n f hn hc' he' =>
      cases hu with
      | zero s =>
          refine ⟨_, repack_zero _, .zero _, ?_⟩
          simp only [valueOf_zero, zero_div, sub_zero, abs_zero, zero_add]
          exact ⟨by positivity, fun z _ => abs_nonneg _⟩
      | @finite m e hm hc he =>
          obtain ⟨r, t, hr, hdiv⟩ := div_positive (e := e) (f := f) hm hn
          rw [hdiv]
          simp only [valueOf_positive] at hq ⊢
          rcases hr.repack_rounded with ⟨hsize, hvalue⟩ | ⟨-, hlarge⟩
          · refine ⟨_, rfl, hsize, ?_⟩
            rw [hvalue]
            exact ⟨hr.error (by positivity), fun z hz => hr.nearest hz⟩
          · exact absurd hq (not_lt_of_ge hlarge)

theorem four_le {e : ℤ} (he : 2 ≤ e) : (4 : ℚ) ≤ 2 ^ e :=
  calc (4 : ℚ) = 2 ^ (2 : ℤ) := by norm_num
    _ ≤ 2 ^ e := two_zpow_le he

theorem Size.div (hx : Size x) (hy : Size y) (hpos : 0 < value y)
    (hq : value x / value y < 4) : Nearest (value x / value y) (x / y) := by
  obtain ⟨w, rfl, hsize, herror, hleast⟩ :=
    div_sizes hx hy hpos (hq.trans_le (four_le (by decide)))
  exact ⟨hsize, herror, fun z hz => hleast _ hz⟩

/-! ## Many sums

Every addition multiplies the relative error so far by one rounding more. The induction carries a
factor `c` for it, and ends with as many roundings as there are doubles. A sum of bands has at most
twenty of them.
-/

/-- The exact sum of doubles. -/
def total (xs : List Float) : ℚ := (xs.map value).sum

theorem total_cons (x : Float) (xs : List Float) : total (x :: xs) = value x + total xs := rfl

theorem total_nonneg {xs : List Float} (h : ∀ x ∈ xs, Size x) : 0 ≤ total xs :=
  List.sum_nonneg (List.forall_mem_map.mpr fun x hx => (h x hx).value_nonneg)

theorem value_le_total {xs : List Float} (h : ∀ x ∈ xs, Size x) (hx : x ∈ xs) :
    value x ≤ total xs :=
  List.single_le_sum (List.forall_mem_map.mpr fun y hy => (h y hy).value_nonneg) _
    (List.mem_map_of_mem hx)

theorem foldl_add_infinite {xs : List Float} (h : ∀ x ∈ xs, Size x) {a : Float} (ha : Infinite a) :
    Infinite (xs.foldl (· + ·) a) := by
  induction xs generalizing a with
  | nil => exact ha
  | cons x xs ih =>
      rw [List.forall_mem_cons] at h
      exact ih h.2 (ha.add h.1)

/-- One more addition makes the relative error of a sum larger by one rounding. -/
theorem abs_add_sub_le {a x b A c : ℚ} (hx : 0 ≤ x) (hc : 1 ≤ c)
    (ha : |a - A| ≤ (c - 1) * A) (hb : |b - (a + x)| ≤ (a + x) / 2 ^ 53) :
    |b - (A + x)| ≤ (c * (1 + 1 / 2 ^ 53) - 1) * (A + x) := by
  have hsum : a + x ≤ c * (A + x) := by
    have hupper := (abs_le.mp ha).2
    have hscaled : x ≤ c * x := le_mul_of_one_le_left hx hc
    linarith
  have hstart : (c - 1) * A ≤ (c - 1) * (A + x) :=
    mul_le_mul_of_nonneg_left (by linarith) (by linarith)
  calc |b - (A + x)| = |b - (a + x) + (a - A)| := by congr 1; ring
    _ ≤ |b - (a + x)| + |a - A| := abs_add_le _ _
    _ ≤ c * (A + x) / 2 ^ 53 + (c - 1) * (A + x) := by
        refine add_le_add (hb.trans ?_) (ha.trans hstart)
        gcongr
    _ = (c * (1 + 1 / 2 ^ 53) - 1) * (A + x) := by ring

theorem foldl_add_sizes {xs : List Float} (h : ∀ x ∈ xs, Size x) {a : Float} {A c : ℚ}
    (ha : Size a) (hA : 0 ≤ A) (hc : 1 ≤ c) (hnear : |value a - A| ≤ (c - 1) * A) :
    (Size (xs.foldl (· + ·) a) ∧ |value (xs.foldl (· + ·) a) - (A + total xs)| ≤
        (c * (1 + 1 / 2 ^ 53) ^ xs.length - 1) * (A + total xs)) ∨
      Infinite (xs.foldl (· + ·) a) ∧
        2 ^ (1023 : ℤ) ≤ c * (1 + 1 / 2 ^ 53) ^ xs.length * (A + total xs) := by
  induction xs generalizing a A c with
  | nil =>
      simp only [List.foldl_nil, List.length_nil, pow_zero, mul_one, total, List.map_nil,
        List.sum_nil, add_zero]
      exact .inl ⟨ha, hnear⟩
  | cons x xs ih =>
      rw [List.forall_mem_cons] at h
      obtain ⟨hx, hxs⟩ := h
      have hx0 := hx.value_nonneg
      have hxs0 := total_nonneg hxs
      have hgrow : c ≤ c * (1 + 1 / 2 ^ 53) := le_mul_of_one_le_right (by linarith) (by norm_num)
      rw [List.foldl_cons, List.length_cons, pow_succ', ← mul_assoc, total_cons, ← add_assoc]
      rcases ha.add hx with ⟨hsize, hsum⟩ | ⟨hinf, hlarge⟩
      · exact ih hxs hsize (by linarith) (hc.trans hgrow) (abs_add_sub_le hx0 hc hnear hsum)
      · -- Infinity stays, and the exact sum only grows.
        refine .inr ⟨foldl_add_infinite hxs hinf, hlarge.trans ?_⟩
        have hupper := (abs_le.mp hnear).2
        have hscaled : value x ≤ c * value x := le_mul_of_one_le_left hx0 hc
        have hpow : c ≤ c * (1 + 1 / 2 ^ 53) * (1 + 1 / 2 ^ 53) ^ xs.length :=
          hgrow.trans (le_mul_of_one_le_right (by linarith) (one_le_pow₀ (by norm_num)))
        calc value a + value x ≤ c * (A + value x) := by linarith
          _ ≤ c * (1 + 1 / 2 ^ 53) * (1 + 1 / 2 ^ 53) ^ xs.length * (A + value x + total xs) :=
              mul_le_mul hpow (by linarith) (by linarith) (by linarith)

/-- For all the bands that a spectrum can have, a sum has a small relative error or is
infinite. -/
theorem sum_sizes {xs : List Float} (h : ∀ x ∈ xs, Size x) (hlength : xs.length ≤ bandLimit) :
    (Size (Spectrum.sum xs) ∧ |value (Spectrum.sum xs) - total xs| ≤ total xs / 2 ^ 48) ∨
      Infinite (Spectrum.sum xs) ∧ 4 ≤ total xs := by
  have htotal := total_nonneg h
  -- Each addition has a relative error of at most `2 ^ -53`, and there are twenty at most.
  have hpow : ((1 : ℚ) + 1 / 2 ^ 53) ^ xs.length ≤ 1 + 1 / 2 ^ 48 :=
    calc ((1 : ℚ) + 1 / 2 ^ 53) ^ xs.length ≤ (1 + 1 / 2 ^ 53) ^ 20 :=
          pow_le_pow_right₀ (by norm_num) hlength
      _ ≤ 1 + 1 / 2 ^ 48 := by norm_num
  have hsum := foldl_add_sizes (A := 0) (c := 1) h size_zero le_rfl le_rfl (by
    rw [value_zero, sub_zero, abs_zero, mul_zero])
  simp only [zero_add, one_mul] at hsum
  refine hsum.imp (fun ⟨hsize, hnear⟩ => ⟨hsize, hnear.trans ?_⟩)
    fun ⟨hinf, hlarge⟩ => ⟨hinf, ?_⟩
  · calc (((1 : ℚ) + 1 / 2 ^ 53) ^ xs.length - 1) * total xs ≤ 1 / 2 ^ 48 * total xs := by
          gcongr
          linarith
      _ = total xs / 2 ^ 48 := by ring
  · have hdouble : (4 : ℚ) * 2 ≤ 2 * total xs :=
      calc (4 : ℚ) * 2 ≤ 2 ^ (1022 : ℤ) * 2 :=
            mul_le_mul_of_nonneg_right (four_le (by decide)) two_pos.le
        _ = 2 ^ (1023 : ℤ) := (zpow_add_one₀ (by norm_num) 1022).symm
        _ ≤ ((1 : ℚ) + 1 / 2 ^ 53) ^ xs.length * total xs := hlarge
        _ ≤ 2 * total xs := mul_le_mul_of_nonneg_right (hpow.trans (by norm_num)) htotal
    linarith only [hdouble]

end Double

end StellarWind
