import StellarWind.Proofs.Number.Arithmetic

/-!
# The signs of doubles

Negation changes the sign of a double and nothing else, so that it commutes with products and
quotients, whatever is rounded on the way. Two doubles are alike when they are equal as numbers
or neither is a number: then they are the same double or the two zeros (`alike_iff`), and the
operations take alike doubles to alike ones.
-/

namespace StellarWind

namespace Double

open Float.Model (UnpackedFloat Format)
open Float.Model.UnpackedFloat (Sign)

variable {x y z w : Float}

/-! ## Negation by parts

A double is negated by its parts. They are packed again afterwards, and packing stores the sign on
its own.
-/

theorem unpack_packComponents_neg (s : Sign) (exponent : BitVec 11) (mantissa : BitVec 52) :
    UnpackedFloat.unpack Format.binary64
        (UnpackedFloat.packComponents Format.binary64 (-s) exponent mantissa) =
      (UnpackedFloat.unpack Format.binary64
        (UnpackedFloat.packComponents Format.binary64 s exponent mantissa)).neg := by
  unfold UnpackedFloat.unpack
  simp only [UnpackedFloat.unpackMantissa_packComponents,
    UnpackedFloat.unpackExponent_packComponents, UnpackedFloat.unpackSign_packComponents,
    Sign.ofBitVec_toBitVec]
  split
  · split <;> rfl
  · split
    · split <;> rfl
    · rfl

theorem repack_neg (u : UnpackedFloat) : repack u.neg = (repack u).neg := by
  cases u with
  | infinity s =>
      rw [repack_infinity]
      exact repack_infinity (-s)
  | notANumber => rfl
  | zero s =>
      rw [repack_zero]
      exact repack_zero (-s)
  | finite s m e h =>
      rw [repack, repack, UnpackedFloat.neg, UnpackedFloat.pack, UnpackedFloat.pack]
      split
      · exact unpack_packComponents_neg s _ _
      · split <;> exact unpack_packComponents_neg s _ _

theorem repack_unpack (x : Float) : repack x.toModel.unpack = x.toModel.unpack :=
  congrArg (UnpackedFloat.unpack Format.binary64)
    (UnpackedFloat.pack_unpack_of_valid x.toModel.valid)

theorem unpack_neg (x : Float) : (-x).toModel.unpack = x.toModel.unpack.neg :=
  calc (-x).toModel.unpack = repack x.toModel.unpack.neg := rfl
    _ = x.toModel.unpack.neg := by rw [repack_neg, repack_unpack]

theorem unpack_mul (x y : Float) :
    (x * y).toModel.unpack = repack (.mul Format.binary64 x.toModel.unpack y.toModel.unpack) := rfl

/-- A double is known by its parts. -/
theorem eq_of_unpack (h : x.toModel.unpack = y.toModel.unpack) : x = y := by
  have hbits := (UnpackedFloat.unpack_inj_of_valid x.toModel.valid y.toModel.valid).mp h
  exact Float.toBits_inj.mp (UInt64.toBitVec_inj.mp hbits)

/-! ## The sign rules

A product or quotient is computed from the significands and exponents, and its sign from the signs.
So a sign can be taken out of it before it is rounded.
-/

theorem sign_neg_neg (s : Sign) : - -s = s := by cases s <;> rfl

theorem sign_neg_mul (s t : Sign) : -s * t = -(s * t) := by cases s <;> cases t <;> rfl

theorem sign_mul_neg (s t : Sign) : s * -t = -(s * t) := by cases s <;> cases t <;> rfl

theorem sign_neg_div (s t : Sign) : -s / t = -(s / t) := by cases s <;> cases t <;> rfl

/-- Rounding does not look at the sign. -/
theorem roundWithAccuracy_neg (f : Format) (s : Sign) (m : ℕ) (e : ℤ)
    (a : UnpackedFloat.Accuracy) :
    UnpackedFloat.roundWithAccuracy f (-s) m e a =
      (UnpackedFloat.roundWithAccuracy f s m e a).neg := by
  unfold UnpackedFloat.roundWithAccuracy
  dsimp only
  split <;> rfl

theorem neg_neg_parts (u : UnpackedFloat) : u.neg.neg = u := by
  cases u <;> simp only [UnpackedFloat.neg, sign_neg_neg]

theorem neg_mul_parts (f : Format) (u v : UnpackedFloat) :
    UnpackedFloat.mul f u.neg v = (UnpackedFloat.mul f u v).neg := by
  cases u <;> cases v <;>
    simp only [UnpackedFloat.mul, UnpackedFloat.neg, sign_neg_mul, roundWithAccuracy_neg]

theorem mul_neg_parts (f : Format) (u v : UnpackedFloat) :
    UnpackedFloat.mul f u v.neg = (UnpackedFloat.mul f u v).neg := by
  cases u <;> cases v <;>
    simp only [UnpackedFloat.mul, UnpackedFloat.neg, sign_mul_neg, roundWithAccuracy_neg]

theorem neg_div_parts (f : Format) (u v : UnpackedFloat) :
    UnpackedFloat.div f u.neg v = (UnpackedFloat.div f u v).neg := by
  cases u <;> cases v <;>
    simp only [UnpackedFloat.div, UnpackedFloat.neg, sign_neg_div, roundWithAccuracy_neg]

theorem neg_neg (x : Float) : - -x = x :=
  eq_of_unpack (by rw [unpack_neg, unpack_neg, neg_neg_parts])

theorem neg_mul (x y : Float) : -x * y = -(x * y) :=
  eq_of_unpack (by rw [unpack_neg, unpack_mul, unpack_neg, neg_mul_parts, repack_neg, unpack_mul])

theorem mul_neg (x y : Float) : x * -y = -(x * y) :=
  eq_of_unpack (by rw [unpack_neg, unpack_mul, unpack_neg, mul_neg_parts, repack_neg, unpack_mul])

theorem neg_div (x y : Float) : -x / y = -(x / y) :=
  eq_of_unpack (by rw [unpack_neg, unpack_div, unpack_neg, neg_div_parts, repack_neg, unpack_div])

theorem neg_mul_neg (x y : Float) : -x * -y = x * y := by
  rw [neg_mul, mul_neg, neg_neg]

theorem neg_lt_zero_iff : -x < 0 ↔ 0 < x := by
  have hzero : (0 : Float).isNaN = false ∧ place 0 = placeOf (.zero .positive) := by decide +kernel
  rw [lt_iff, lt_iff, hzero.1, hzero.2, place, place, unpack_neg]
  show (-x).toModel.unpack.isNaN = false ∧ _ ↔ _ ∧ x.toModel.unpack.isNaN = false ∧ _
  rw [unpack_neg]
  rcases x.toModel.unpack with (_ | _) | _ | _ | ⟨_ | _, m, e, h⟩ <;>
    simp [UnpackedFloat.neg, placeOf, Prod.Lex.toLex_lt_toLex, isNaN_infinity, isNaN_zero,
      isNaN_finite]

/-! ## Doubles that are alike

A zero has a sign, and two ways to compute the same number can differ in it. Results are therefore
compared up to this sign. On parts that is a relation with two cases, and every operation takes
each of them to one of them.
-/

/-- Equality of results: the two zeros are equal, and so are all that are not numbers. -/
def Alike (x y : Float) : Prop := (x == y) = true ∨ x.isNaN = true ∧ y.isNaN = true

instance (x y : Float) : Decidable (Alike x y) := inferInstanceAs (Decidable (_ ∨ _))

/-- Equality of parts up to the sign of zero. -/
inductive AlikeParts : UnpackedFloat → UnpackedFloat → Prop
  | refl (u : UnpackedFloat) : AlikeParts u u
  | zeros (s t : Sign) : AlikeParts (.zero s) (.zero t)

theorem eq_zero_of_unpack {s : Sign} (h : x.toModel.unpack = .zero s) : x = 0 ∨ x = -0 := by
  cases s with
  | negative => exact .inr (eq_of_unpack (h.trans rfl))
  | positive => exact .inl (eq_of_unpack (h.trans rfl))

theorem alike_iff : Alike x y ↔ AlikeParts x.toModel.unpack y.toModel.unpack := by
  rw [Alike, Float.beq_iff_ne_nan_and_eq, Float.isNaN_eq_decide_eq_nan,
    Float.isNaN_eq_decide_eq_nan, decide_eq_true_iff, decide_eq_true_iff]
  constructor
  · rintro (⟨-, -, rfl | ⟨rfl, rfl⟩ | ⟨rfl, rfl⟩⟩ | ⟨rfl, rfl⟩)
    · exact .refl _
    · exact .zeros .positive .negative
    · exact .zeros .negative .positive
    · exact .refl _
  · intro h
    generalize hu : x.toModel.unpack = u at h
    generalize hv : y.toModel.unpack = v at h
    cases h with
    | refl =>
        obtain rfl := eq_of_unpack (hu.trans hv.symm)
        by_cases hnan : x = Float.nan
        · exact .inr ⟨hnan, hnan⟩
        · exact .inl ⟨hnan, hnan, .inl rfl⟩
    | zeros s t =>
        left
        -- Two zeros are equal whatever their signs.
        rcases eq_zero_of_unpack hu with rfl | rfl <;>
          rcases eq_zero_of_unpack hv with rfl | rfl <;> decide +kernel

/-! ### Operations on doubles that are alike

The sign of a zero can come out in the sign of another zero only, as long as nothing is divided by
it.
-/

namespace AlikeParts

variable {u u' v v' : UnpackedFloat}

theorem symm (h : AlikeParts u v) : AlikeParts v u := by
  cases h with
  | refl => exact .refl _
  | zeros s t => exact .zeros t s

theorem repack (h : AlikeParts u v) : AlikeParts (repack u) (repack v) := by
  cases h with
  | refl => exact .refl _
  | zeros s t =>
      rw [repack_zero, repack_zero]
      exact .zeros s t

theorem neg (h : AlikeParts u v) : AlikeParts u.neg v.neg := by
  cases h with
  | refl => exact .refl _
  | zeros s t => exact .zeros (-s) (-t)

/-- A zero changes nothing but the sign of another zero. -/
theorem add (f : Format) (hu : AlikeParts u u') (hv : AlikeParts v v') :
    AlikeParts (.add f u v) (.add f u' v') := by
  cases hu with
  | refl =>
      cases hv with
      | refl => exact .refl _
      | zeros s t =>
          cases u with
          | zero r => cases r <;> cases s <;> cases t <;> exact .zeros _ _
          | _ => exact .refl _
  | zeros s t =>
      cases hv with
      | refl =>
          cases v with
          | zero r => cases r <;> cases s <;> cases t <;> exact .zeros _ _
          | _ => exact .refl _
      | zeros s' t' => cases s <;> cases t <;> cases s' <;> cases t' <;> exact .zeros _ _

theorem mul_right (f : Format) (h : AlikeParts u u') (v : UnpackedFloat) :
    AlikeParts (.mul f u v) (.mul f u' v) := by
  cases h with
  | refl => exact .refl _
  | zeros s t =>
      cases v with
      | infinity r => exact .refl _
      | notANumber => exact .refl _
      | zero r => exact .zeros _ _
      | finite r m e hm => exact .zeros _ _

/-- The square of a zero does not depend on its sign. -/
theorem mul_self (f : Format) (h : AlikeParts u v) :
    UnpackedFloat.mul f u u = UnpackedFloat.mul f v v := by
  cases h with
  | refl => rfl
  | zeros s t => cases s <;> cases t <;> rfl

end AlikeParts

namespace Alike

theorem refl (x : Float) : Alike x x := alike_iff.mpr (.refl _)

theorem symm (h : Alike x y) : Alike y x := alike_iff.mpr (alike_iff.mp h).symm

theorem neg (h : Alike x y) : Alike (-x) (-y) := by
  rw [alike_iff, unpack_neg, unpack_neg]
  exact (alike_iff.mp h).neg

theorem add (hx : Alike x y) (hz : Alike z w) : Alike (x + z) (y + w) := by
  rw [alike_iff, unpack_add, unpack_add]
  exact ((alike_iff.mp hx).add Format.binary64 (alike_iff.mp hz)).repack

theorem mul_right (h : Alike x y) (z : Float) : Alike (x * z) (y * z) := by
  rw [alike_iff, unpack_mul, unpack_mul]
  exact ((alike_iff.mp h).mul_right Format.binary64 z.toModel.unpack).repack

theorem mul_self (h : Alike x y) : x * x = y * y :=
  eq_of_unpack (by rw [unpack_mul, unpack_mul, (alike_iff.mp h).mul_self])

end Alike

end Double

end StellarWind
