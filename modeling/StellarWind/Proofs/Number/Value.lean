import StellarWind.Proofs.Number.Order
import StellarWind.Proofs.Number.Stored

/-!
# The numbers that doubles stand for

A finite double stands for a significand times a power of two, and its parts are in the one
form in which the significand is as long as it can be (`Canonical`). Parts in this form come
back from the bits that they are packed into, unless the exponent is too large, and then
infinity does (`repack`). Doubles that are finite and not negative (`Size`) are in the order
of their numbers.
-/

namespace StellarWind

namespace Double

open Float.Model (UnpackedFloat Format)
open Float.Model.UnpackedFloat (Sign)

/-- The number of a double by its parts. -/
def valueOf : UnpackedFloat → ℚ
  | .finite s m e _ => s.apply m * (2 : ℚ) ^ e
  | _ => 0

/-- The number that a finite double stands for. -/
def value (x : Float) : ℚ := valueOf x.toModel.unpack

theorem valueOf_zero (s : Sign) : valueOf (.zero s) = 0 := rfl

theorem valueOf_positive {m : ℕ} {e : ℤ} (h : 0 < m) :
    valueOf (.finite .positive m e h) = m * 2 ^ e := rfl

theorem two_zpow_pos (e : ℤ) : (0 : ℚ) < 2 ^ e := by positivity

theorem two_zpow_add (e f : ℤ) : (2 : ℚ) ^ (e + f) = 2 ^ e * 2 ^ f := zpow_add₀ (by norm_num) e f

theorem two_zpow_le {e f : ℤ} (h : e ≤ f) : (2 : ℚ) ^ e ≤ 2 ^ f :=
  zpow_le_zpow_right₀ (by norm_num) h

/-! ## Canonical parts

The parts that are read from bits: an exponent of zero is that of the short significands, the
last one is that of infinity, and all others have a full significand with its leading bit added.
-/

/-- A significand of 53 bits, or a shorter one at the least exponent. -/
structure Canonical (m : ℕ) (e : ℤ) : Prop where
  below : m < 2 ^ 53
  least : -1074 ≤ e
  full : 2 ^ 52 ≤ m ∨ e = -1074

theorem exponentBias_binary64 : (Format.binary64.exponentBias : ℤ) = 1023 := by decide

/-- The leading bit of a significand is not stored. -/
theorem toNat_implicit (v : BitVec 52) : (1#1 ++ v).toNat = 2 ^ 52 + v.toNat := by
  rw [BitVec.toNat_append, ← Nat.shiftLeft_add_eq_or_of_lt v.isLt]
  rfl

theorem canonical_of_unpack {b : BitVec 64} {s : Sign} {m : ℕ} {e : ℤ} {h : 0 < m}
    (hu : UnpackedFloat.unpack Format.binary64 b = .finite s m e h) : Canonical m e ∧ e ≤ 971 := by
  have hsmall := (@UnpackedFloat.unpackMantissa Format.binary64 b).isLt
  have hrange := (@UnpackedFloat.unpackExponent Format.binary64 b).isLt
  unfold UnpackedFloat.unpack at hu
  dsimp only at hu hsmall hrange
  -- By the stored exponent: the last one, zero, and all between.
  split at hu
  · split at hu <;> cases hu
  · rename_i hlast
    have hlast : (@UnpackedFloat.unpackExponent Format.binary64 b).toNat ≠ 2047 :=
      fun heq => hlast (BitVec.eq_of_toNat_eq heq)
    split at hu
    · rename_i hfirst
      split at hu
      · cases hu
      · cases hu
        rw [hfirst]
        simp only [exponentBias_binary64, BitVec.toNat_zero]
        exact ⟨⟨by omega, by omega, .inr (by omega)⟩, by omega⟩
    · rename_i hfirst
      have hfirst : (@UnpackedFloat.unpackExponent Format.binary64 b).toNat ≠ 0 :=
        fun heq => hfirst (BitVec.eq_of_toNat_eq heq)
      have himplicit := toNat_implicit (@UnpackedFloat.unpackMantissa Format.binary64 b)
      cases hu
      simp only [exponentBias_binary64]
      exact ⟨⟨by omega, by omega, .inl (by omega)⟩, by omega⟩

/-! ## Parts that have been packed

The result of an operation is packed into bits and unpacked when it is used, so that its parts may
change once more. They do so only when the exponent is beyond that of the largest double.
-/

/-- What comes back from the bits that parts are packed into. -/
def repack (u : UnpackedFloat) : UnpackedFloat :=
  UnpackedFloat.unpack Format.binary64 (UnpackedFloat.pack Format.binary64 u)

theorem repack_zero (s : Sign) : repack (.zero s) = .zero s :=
  UnpackedFloat.unpack_packedZero

theorem repack_infinity (s : Sign) : repack (.infinity s) = .infinity s := by
  cases s <;> rfl

/-- A full significand is packed without its leading bit. -/
theorem unpack_full (s : Sign) {m k : ℕ} (h : 0 < m) (hfull : 2 ^ 52 ≤ m) (hbelow : m < 2 ^ 53)
    (hk : k ≤ 2045) :
    UnpackedFloat.unpack Format.binary64 (UnpackedFloat.packComponents Format.binary64 s
      (BitVec.ofNat 11 (k + 1)) (BitVec.ofNat 52 m)) = .finite s m (k - 1074) h := by
  have hexponent : (BitVec.ofNat 11 (k + 1)).toNat = k + 1 := Nat.mod_eq_of_lt (by omega)
  have hlast : BitVec.ofNat 11 (k + 1) ≠ -1#11 := fun heq => by
    have : k + 1 = 2047 := hexponent.symm.trans (congrArg BitVec.toNat heq)
    omega
  have hfirst : BitVec.ofNat 11 (k + 1) ≠ 0#11 := fun heq => by
    have : k + 1 = 0 := hexponent.symm.trans (congrArg BitVec.toNat heq)
    omega
  have hmantissa : (1#1 ++ BitVec.ofNat 52 m).toNat = m := by
    rw [toNat_implicit, BitVec.toNat_ofNat]
    omega
  unfold UnpackedFloat.unpack
  simp only [UnpackedFloat.unpackMantissa_packComponents,
    UnpackedFloat.unpackExponent_packComponents, UnpackedFloat.unpackSign_packComponents,
    Sign.ofBitVec_toBitVec, if_neg hlast, if_neg hfirst, hmantissa, hexponent,
    exponentBias_binary64]
  congr 1
  omega

/-- A short significand is packed as it is. -/
theorem unpack_short (s : Sign) {m : ℕ} (h : 0 < m) (hbelow : m < 2 ^ 52) :
    UnpackedFloat.unpack Format.binary64 (UnpackedFloat.packComponents Format.binary64 s
      0#11 (BitVec.ofNat 52 m)) = .finite s m (-1074) h := by
  have hmantissa : (BitVec.ofNat 52 m).toNat = m := Nat.mod_eq_of_lt hbelow
  have hne : BitVec.ofNat 52 m ≠ 0#52 := fun heq => by
    have : m = 0 := hmantissa.symm.trans (congrArg BitVec.toNat heq)
    omega
  unfold UnpackedFloat.unpack
  simp only [UnpackedFloat.unpackMantissa_packComponents,
    UnpackedFloat.unpackExponent_packComponents, UnpackedFloat.unpackSign_packComponents,
    Sign.ofBitVec_toBitVec, dif_neg hne, hmantissa, exponentBias_binary64]
  rfl

theorem repack_finite {s : Sign} {m : ℕ} {e : ℤ} (h : 0 < m) (hc : Canonical m e) (he : e ≤ 971) :
    repack (.finite s m e h) = .finite s m e h := by
  obtain ⟨hbelow, hleast, hfull⟩ := hc
  obtain ⟨k, rfl⟩ : ∃ k : ℕ, e = k - 1074 := ⟨(e + 1074).toNat, by omega⟩
  have hbiased : (k - 1074 + (Format.binary64.exponentBias : ℤ) + (52 : ℕ)).toNat = k + 1 := by
    rw [exponentBias_binary64]
    omega
  have hsmall : ¬ 2 ^ 11 ≤
      (k - 1074 + (Format.binary64.exponentBias : ℤ) + (52 : ℕ)).toNat + 1 := by
    rw [hbiased]
    omega
  by_cases hlong : 2 ^ 52 ≤ m
  · have hlog : m.log2 + 1 = 53 := by
      have hlower := (Nat.le_log2 h.ne').mpr hlong
      have hupper := (Nat.log2_lt h.ne').mpr hbelow
      omega
    have hpack : UnpackedFloat.pack Format.binary64 (.finite s m (k - 1074) h) =
        UnpackedFloat.packComponents Format.binary64 s (BitVec.ofNat 11 (k + 1))
          (BitVec.ofNat 52 m) := by
      rw [← hbiased]
      exact (if_neg hsmall).trans (if_pos hlog)
    rw [repack, hpack]
    exact unpack_full s h hlong hbelow (by omega)
  · -- Only at the least exponent there are short significands.
    obtain rfl : k = 0 := by omega
    have hlog : ¬ m.log2 + 1 = 53 := by
      have hupper := (Nat.log2_lt h.ne').mpr (Nat.lt_of_not_le hlong)
      omega
    have hpack : UnpackedFloat.pack Format.binary64 (.finite s m ((0 : ℕ) - 1074) h) =
        UnpackedFloat.packComponents Format.binary64 s 0#11 (BitVec.ofNat 52 m) := by
      unfold UnpackedFloat.pack
      exact (if_neg hsmall).trans (if_neg hlog)
    rw [repack, hpack]
    exact unpack_short s h (Nat.lt_of_not_le hlong)

theorem repack_beyond {s : Sign} {m : ℕ} {e : ℤ} (h : 0 < m) (he : 971 < e) :
    repack (.finite s m e h) = .infinity s := by
  have hlarge : 2 ^ 11 ≤ (e + Format.binary64.exponentBias + (52 : ℕ)).toNat + 1 := by
    rw [exponentBias_binary64]
    omega
  have hpack : UnpackedFloat.pack Format.binary64 (.finite s m e h) =
      UnpackedFloat.packedInfinity Format.binary64 s := if_pos hlarge
  rw [repack, hpack]
  exact repack_infinity s

/-! ## Doubles in the order of their numbers

The places of doubles compare exponents before significands. For canonical parts that is the order
of the numbers, since a full significand with a higher exponent is a larger number.
-/

namespace Canonical

variable {m n : ℕ} {e f : ℤ}

/-- Above the least exponent all significands are full, so that the exponent decides. -/
theorem lt_of_exponent (hm : Canonical m e) (hn : Canonical n f) (h : e < f) :
    (m : ℚ) * 2 ^ e < n * 2 ^ f := by
  have hfull : 2 ^ 52 ≤ n := hn.full.resolve_right (by have := hm.least; omega)
  have hbelow : (m : ℚ) < 2 ^ 53 := by exact_mod_cast hm.below
  have hfull : (2 : ℚ) ^ 52 ≤ n := by exact_mod_cast hfull
  have hstep : (2 : ℚ) ^ (e + 1) ≤ 2 ^ f := two_zpow_le h
  have hpos := two_zpow_pos e
  calc (m : ℚ) * 2 ^ e < 2 ^ 53 * 2 ^ e := by gcongr
    _ = 2 ^ 52 * 2 ^ (e + 1) := by rw [zpow_add_one₀ (by norm_num)]; ring
    _ ≤ n * 2 ^ f := by gcongr

theorem lt_iff (hm : Canonical m e) (hn : Canonical n f) :
    (m : ℚ) * 2 ^ e < n * 2 ^ f ↔ e < f ∨ e = f ∧ m < n := by
  rcases lt_trichotomy e f with h | rfl | h
  · exact iff_of_true (hm.lt_of_exponent hn h) (.inl h)
  · rw [mul_lt_mul_iff_left₀ (two_zpow_pos e), Nat.cast_lt]
    simp
  · exact iff_of_false (hn.lt_of_exponent hm h).le.not_gt (by omega)

end Canonical

/-! ### Doubles that are not negative

For these the order of the places is the order of the numbers: a larger exponent decides, and for
equal exponents the significand does.
-/

/-- Parts of a double that is finite and not negative. -/
inductive IsSize : UnpackedFloat → Prop
  | zero (s : Sign) : IsSize (.zero s)
  | finite {m : ℕ} {e : ℤ} (h : 0 < m) (hc : Canonical m e) (he : e ≤ 971) :
      IsSize (.finite .positive m e h)

theorem IsSize.valueOf_nonneg {u : UnpackedFloat} (hu : IsSize u) : 0 ≤ valueOf u := by
  cases hu with
  | zero s => exact le_rfl
  | finite h hc he =>
      rw [valueOf_positive]
      positivity

theorem IsSize.placeOf_lt_iff {u v : UnpackedFloat} (hu : IsSize u) (hv : IsSize v) :
    placeOf u < placeOf v ↔ valueOf u < valueOf v := by
  cases hu with
  | zero s =>
      cases hv with
      | zero t => exact iff_of_false (fun h => h.false) fun h => h.false
      | finite h hc he =>
          refine iff_of_true ?_ ?_
          · simp [placeOf, Prod.Lex.toLex_lt_toLex]
          · rw [valueOf_zero, valueOf_positive]
            positivity
  | finite h hc he =>
      cases hv with
      | zero t =>
          refine iff_of_false ?_ (not_lt_of_ge (IsSize.finite h hc he).valueOf_nonneg)
          simp [placeOf, Prod.Lex.toLex_lt_toLex]
      | finite h' hc' he' =>
          rw [valueOf_positive, valueOf_positive, hc.lt_iff hc']
          simp [placeOf, Prod.Lex.toLex_lt_toLex]

/-- A double that is finite and not negative. -/
def Size (x : Float) : Prop := IsSize x.toModel.unpack

theorem size_iff {x : Float} : Size x ↔ x.isFinite = true ∧ 0 ≤ x := by
  have hzero : (0 : Float).isNaN = false ∧ place 0 = placeOf (.zero .positive) := by decide +kernel
  have hcanonical : ∀ {s m e h}, x.toModel.unpack = .finite s m e h → Canonical m e ∧ e ≤ 971 :=
    canonical_of_unpack
  rw [le_iff, hzero.1, hzero.2, Size, place]
  show _ ↔ x.toModel.unpack.isFinite = true ∧ _ ∧ x.toModel.unpack.isNaN = false ∧ _
  generalize x.toModel.unpack = u at hcanonical
  rcases u with s | _ | s | ⟨_ | _, m, e, h⟩
  · exact iff_of_false (fun h => nomatch h) fun h => nomatch h.1
  · exact iff_of_false (fun h => nomatch h) fun h => nomatch h.1
  · exact iff_of_true (.zero s) ⟨rfl, rfl, rfl, le_rfl⟩
  · refine iff_of_false (fun h => nomatch h) fun h => ?_
    exact absurd h.2.2.2 (by simp [placeOf, Prod.Lex.toLex_le_toLex])
  · obtain ⟨hc, he⟩ := hcanonical rfl
    refine iff_of_true (.finite h hc he) ⟨rfl, rfl, rfl, ?_⟩
    simp [placeOf, Prod.Lex.toLex_le_toLex]

theorem size_zero : Size 0 := size_iff.mpr (by decide +kernel)

theorem value_zero : value 0 = 0 := by decide +kernel

namespace Size

variable {x y : Float}

theorem isNaN (h : Size x) : x.isNaN = false := isNaN_of_isFinite (size_iff.mp h).1

theorem value_nonneg (h : Size x) : 0 ≤ value x := h.valueOf_nonneg

theorem lt_iff (hx : Size x) (hy : Size y) : x < y ↔ value x < value y := by
  rw [Double.lt_iff, and_iff_right hx.isNaN, and_iff_right hy.isNaN]
  exact IsSize.placeOf_lt_iff hx hy

theorem le_iff (hx : Size x) (hy : Size y) : x ≤ y ↔ value x ≤ value y := by
  rw [← not_lt hy.isNaN hx.isNaN, hy.lt_iff hx]
  exact ⟨le_of_not_gt, not_lt_of_ge⟩

theorem greatest (hx : Size x) (hy : Size y) :
    Size (greatest x y) ∧ value (greatest x y) = max (value x) (value y) := by
  rw [StellarWind.greatest, if_neg (Bool.eq_false_iff.mp hy.isNaN)]
  split
  · rename_i h
    exact ⟨hx, (max_eq_left ((hy.lt_iff hx).mp h).le).symm⟩
  · rename_i h
    exact ⟨hy, (max_eq_right (le_of_not_gt (mt (hy.lt_iff hx).mpr h))).symm⟩

end Size

end Double

end StellarWind
