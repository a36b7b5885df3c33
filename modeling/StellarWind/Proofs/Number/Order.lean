import Mathlib.Data.Int.Order.Basic
import Mathlib.Data.Prod.Lex
import StellarWind.Number.Functions

/-!
# The order of doubles

A double that is a number has a place in a linear order, and one double is below another
exactly when both are numbers and so are their places. The two zeros share a place, so the
order of doubles is total without being antisymmetric.
-/

namespace StellarWind

namespace Double

open Float.Model (UnpackedFloat)

/-- The place of a double by its parts: first by sign and size class, then, between finite
doubles of one sign, by exponent and significand. -/
def placeOf : UnpackedFloat → ℤ ×ₗ ℤ ×ₗ ℤ
  | .infinity .negative => toLex (-2, toLex (0, 0))
  | .finite .negative significand exponent _ => toLex (-1, toLex (-exponent, -significand))
  | .zero _ => toLex (0, toLex (0, 0))
  | .finite .positive significand exponent _ => toLex (1, toLex (exponent, significand))
  | .infinity .positive => toLex (2, toLex (0, 0))
  | .notANumber => toLex (0, toLex (0, 0))

/-- The place of a double in the order of all numbers. -/
def place (x : Float) : ℤ ×ₗ ℤ ×ₗ ℤ := placeOf x.toModel.unpack

/-! ## Comparisons by places

The comparison goes by the kinds of both parts: infinities, zeros and finite ones of either sign.
For every two kinds it has a case, and in each the places compare in the same way. Only two finite
doubles of one sign need more than their kinds.
-/

theorem isNaN_notANumber : UnpackedFloat.notANumber.isNaN = true := rfl

theorem isNaN_infinity (s : UnpackedFloat.Sign) : (UnpackedFloat.infinity s).isNaN = false := rfl

theorem isNaN_zero (s : UnpackedFloat.Sign) : (UnpackedFloat.zero s).isNaN = false := rfl

theorem isNaN_finite (s : UnpackedFloat.Sign) (m : ℕ) (e : ℤ) (h : 0 < m) :
    (UnpackedFloat.finite s m e h).isNaN = false :=
  rfl

theorem compare_sign_lt : compare UnpackedFloat.Sign.negative UnpackedFloat.Sign.positive = .lt :=
  rfl

theorem compare_sign_gt : compare UnpackedFloat.Sign.positive UnpackedFloat.Sign.negative = .gt :=
  rfl

theorem compare_sign_self (s : UnpackedFloat.Sign) : compare s s = .eq := by
  cases s <;> rfl

/-- Finite doubles of one sign are compared by exponent, then by significand. -/
theorem compare_finite_lt_iff (e f : ℤ) (m n : ℕ) :
    (compare e f).then (compare m n) = .lt ↔ e < f ∨ e = f ∧ m < n := by
  rw [Ordering.then_eq_lt, compare_lt_iff_lt, compare_eq_iff_eq, compare_lt_iff_lt]

theorem compare_finite_gt_iff (e f : ℤ) (m n : ℕ) :
    (compare e f).then (compare m n) = .gt ↔ f < e ∨ e = f ∧ n < m := by
  rw [Ordering.then_eq_gt, compare_gt_iff_gt, compare_eq_iff_eq, compare_gt_iff_gt]

theorem compare_finite_isLE_iff (e f : ℤ) (m n : ℕ) :
    ((compare e f).then (compare m n)).isLE ↔ e < f ∨ e = f ∧ m ≤ n := by
  rw [Ordering.isLE_iff_ne_gt, compare_finite_gt_iff]
  omega

theorem compare_finite_isGE_iff (e f : ℤ) (m n : ℕ) :
    ((compare e f).then (compare m n)).isGE ↔ f < e ∨ e = f ∧ n ≤ m := by
  rw [Ordering.isGE_iff_ne_lt, compare_finite_lt_iff]
  omega

theorem lt_iff_placeOf (u v : UnpackedFloat) :
    u.lt v ↔ u.isNaN = false ∧ v.isNaN = false ∧ placeOf u < placeOf v := by
  -- Each kind by its sign, but for zero, where the sign does not count.
  rcases u with (_ | _) | _ | _ | ⟨_ | _, m, e, _⟩ <;>
    rcases v with (_ | _) | _ | _ | ⟨_ | _, n, f, _⟩ <;>
    dsimp only [UnpackedFloat.lt, UnpackedFloat.compare, placeOf, isNaN_notANumber,
      isNaN_infinity, isNaN_zero, isNaN_finite] <;>
    simp [Prod.Lex.toLex_lt_toLex, compare_sign_lt, compare_sign_gt, compare_sign_self,
      compare_finite_lt_iff, compare_finite_gt_iff]

theorem le_iff_placeOf (u v : UnpackedFloat) :
    u.le v ↔ u.isNaN = false ∧ v.isNaN = false ∧ placeOf u ≤ placeOf v := by
  rcases u with (_ | _) | _ | _ | ⟨_ | _, m, e, _⟩ <;>
    rcases v with (_ | _) | _ | _ | ⟨_ | _, n, f, _⟩ <;>
    dsimp only [UnpackedFloat.le, UnpackedFloat.compare, placeOf, isNaN_notANumber,
      isNaN_infinity, isNaN_zero, isNaN_finite] <;>
    simp [Prod.Lex.toLex_le_toLex, compare_sign_lt, compare_sign_gt, compare_sign_self,
      compare_finite_isLE_iff, compare_finite_isGE_iff]

theorem lt_iff {x y : Float} :
    x < y ↔ x.isNaN = false ∧ y.isNaN = false ∧ place x < place y := by
  show decide (x.toModel < y.toModel) = true ↔ _
  rw [decide_eq_true_iff]
  exact lt_iff_placeOf _ _

theorem le_iff {x y : Float} :
    x ≤ y ↔ x.isNaN = false ∧ y.isNaN = false ∧ place x ≤ place y := by
  show decide (x.toModel ≤ y.toModel) = true ↔ _
  rw [decide_eq_true_iff]
  exact le_iff_placeOf _ _

/-! ## A total order on numbers

The laws of the order are those of the places. Where a comparison is known to hold, both sides are
numbers already, and only the laws without such a comparison have to ask for it.
-/

section

variable {x y z : Float}

theorem lt_irrefl (x : Float) : ¬ x < x := fun h => (lt_iff.mp h).2.2.false

theorem le_refl (hx : x.isNaN = false) : x ≤ x := le_iff.mpr ⟨hx, hx, le_rfl⟩

theorem le_of_lt (h : x < y) : x ≤ y := by
  obtain ⟨hx, hy, hplace⟩ := lt_iff.mp h
  exact le_iff.mpr ⟨hx, hy, hplace.le⟩

theorem le_trans (hxy : x ≤ y) (hyz : y ≤ z) : x ≤ z := by
  obtain ⟨hx, -, hplace⟩ := le_iff.mp hxy
  obtain ⟨-, hz, hplace'⟩ := le_iff.mp hyz
  exact le_iff.mpr ⟨hx, hz, hplace.trans hplace'⟩

theorem lt_of_lt_of_le (hxy : x < y) (hyz : y ≤ z) : x < z := by
  obtain ⟨hx, -, hplace⟩ := lt_iff.mp hxy
  obtain ⟨-, hz, hplace'⟩ := le_iff.mp hyz
  exact lt_iff.mpr ⟨hx, hz, hplace.trans_le hplace'⟩

theorem lt_of_le_of_lt (hxy : x ≤ y) (hyz : y < z) : x < z := by
  obtain ⟨hx, -, hplace⟩ := le_iff.mp hxy
  obtain ⟨-, hz, hplace'⟩ := lt_iff.mp hyz
  exact lt_iff.mpr ⟨hx, hz, hplace.trans_lt hplace'⟩

theorem lt_trans (hxy : x < y) (hyz : y < z) : x < z := lt_of_lt_of_le hxy (le_of_lt hyz)

instance transLt : Trans (fun x y : Float => x < y) (fun x y : Float => x < y) fun x y => x < y :=
  ⟨lt_trans⟩

theorem not_lt (hx : x.isNaN = false) (hy : y.isNaN = false) : ¬ x < y ↔ y ≤ x := by
  rw [lt_iff, le_iff]
  constructor
  · intro h
    exact ⟨hy, hx, le_of_not_gt fun hplace => h ⟨hx, hy, hplace⟩⟩
  · rintro ⟨-, -, hle⟩ ⟨-, -, hlt⟩
    exact hlt.not_ge hle

theorem not_le (hx : x.isNaN = false) (hy : y.isNaN = false) : ¬ x ≤ y ↔ y < x := by
  rw [lt_iff, le_iff]
  constructor
  · intro h
    exact ⟨hy, hx, lt_of_not_ge fun hplace => h ⟨hx, hy, hplace⟩⟩
  · rintro ⟨-, -, hlt⟩ ⟨-, -, hle⟩
    exact hlt.not_ge hle

theorem not_le_of_lt (h : x < y) : ¬ y ≤ x := fun hle => lt_irrefl x (lt_of_lt_of_le h hle)

theorem isNaN_right_of_lt (h : x < y) : y.isNaN = false := (lt_iff.mp h).2.1

/-- A finite double is a number. -/
theorem isNaN_of_isFinite (h : x.isFinite = true) : x.isNaN = false := by
  have hparts (u : UnpackedFloat) (hu : u.isFinite = true) : u.isNaN = false := by
    cases u with
    | notANumber => cases hu
    | infinity s => rfl
    | zero s => rfl
    | finite s m e hm => rfl
  exact hparts x.toModel.unpack h

theorem lt_infinity (h : x.isFinite = true) : x < infinity := by
  have hparts (u : UnpackedFloat) (hu : u.isFinite = true) :
      placeOf u < placeOf (.infinity .positive) := by
    rcases u with s | _ | s | ⟨_ | _, m, e, _⟩
    · cases hu
    · cases hu
    all_goals
      dsimp only [placeOf]
      simp [Prod.Lex.toLex_lt_toLex]
  exact lt_iff.mpr ⟨isNaN_of_isFinite h, by decide +kernel, hparts x.toModel.unpack h⟩

end

/-! ## The least and the greatest of many doubles

Both are found by going through a list with a choice between two, and the argument is the same for
either order (`Chooses`). A start that is worse than everything in the list, as the extremes of an
empty tally are, is left out of the result.
-/

/-- A choice between two doubles: of two numbers it takes the one that comes first. -/
structure Chooses (first : Float → Float → Prop) (pick : Float → Float → Float) : Prop where
  either : ∀ x y, pick x y = x ∨ pick x y = y
  left : ∀ {x y : Float}, x.isNaN = false → y.isNaN = false → first (pick x y) x
  right : ∀ {x y : Float}, x.isNaN = false → y.isNaN = false → first (pick x y) y

theorem chooses_least : Chooses (· ≤ ·) least where
  either := by
    intro x y
    unfold least
    split_ifs <;> simp
  left := by
    intro x y hx hy
    rw [least, if_neg (Bool.eq_false_iff.mp hy)]
    split_ifs with hlt
    · exact le_refl hx
    · exact (not_lt hx hy).mp hlt
  right := by
    intro x y hx hy
    rw [least, if_neg (Bool.eq_false_iff.mp hy)]
    split_ifs with hlt
    · exact le_of_lt hlt
    · exact le_refl hy

theorem chooses_greatest : Chooses (fun x y => y ≤ x) greatest where
  either := by
    intro x y
    unfold greatest
    split_ifs <;> simp
  left := by
    intro x y hx hy
    rw [greatest, if_neg (Bool.eq_false_iff.mp hy)]
    split_ifs with hlt
    · exact le_refl hx
    · exact (not_lt hy hx).mp hlt
  right := by
    intro x y hx hy
    rw [greatest, if_neg (Bool.eq_false_iff.mp hy)]
    split_ifs with hlt
    · exact le_of_lt hlt
    · exact le_refl hy

/-- Choosing again and again leaves one of the doubles, and it comes first among them all. -/
theorem Chooses.foldl {first : Float → Float → Prop} {pick : Float → Float → Float}
    (h : Chooses first pick) (htrans : ∀ {x y z : Float}, first x y → first y z → first x z)
    {start : Float} {xs : List Float} (hnumbers : ∀ x ∈ start :: xs, x.isNaN = false) :
    xs.foldl pick start ∈ start :: xs ∧ ∀ x ∈ start :: xs, first (xs.foldl pick start) x := by
  induction xs generalizing start with
  | nil =>
      have hstart := hnumbers start List.mem_cons_self
      have hself := h.left hstart hstart
      rw [or_self_iff.mp (h.either start start)] at hself
      exact ⟨List.mem_cons_self, List.forall_mem_singleton.mpr hself⟩
  | cons x xs ih =>
      rw [List.forall_mem_cons, List.forall_mem_cons] at hnumbers
      obtain ⟨hstart, hx, hxs⟩ := hnumbers
      have hpick : (pick start x).isNaN = false := by
        obtain heq | heq := h.either start x <;> rwa [heq]
      obtain ⟨hmem, hfirst⟩ := ih (List.forall_mem_cons.mpr ⟨hpick, hxs⟩)
      rw [List.forall_mem_cons] at hfirst
      refine ⟨?_, ?_⟩
      · -- What is left is among the rest, or it is the choice between the first two.
        rw [List.foldl_cons]
        obtain heq | hrest := List.mem_cons.mp hmem
        · rw [heq]
          obtain heq | heq := h.either start x <;> simp [heq]
        · exact List.mem_cons_of_mem _ (List.mem_cons_of_mem _ hrest)
      · rw [List.forall_mem_cons, List.forall_mem_cons]
        exact ⟨htrans hfirst.1 (h.left hstart hx), htrans hfirst.1 (h.right hstart hx), hfirst.2⟩

/-- A start that comes before none of the doubles is not left. -/
theorem Chooses.foldl_of_start {first : Float → Float → Prop} {pick : Float → Float → Float}
    (h : Chooses first pick) (htrans : ∀ {x y z : Float}, first x y → first y z → first x z)
    {start : Float} {xs : List Float} (hstart : start.isNaN = false)
    (hnumbers : ∀ x ∈ xs, x.isNaN = false) (hlast : ∀ x ∈ xs, ¬ first start x) (hxs : xs ≠ []) :
    xs.foldl pick start ∈ xs ∧ ∀ x ∈ xs, first (xs.foldl pick start) x := by
  obtain ⟨hmem, hfirst⟩ := h.foldl htrans (List.forall_mem_cons.mpr ⟨hstart, hnumbers⟩)
  have hall := (List.forall_mem_cons.mp hfirst).2
  refine ⟨(List.mem_cons.mp hmem).resolve_left fun heq => ?_, hall⟩
  obtain ⟨x, hx⟩ := List.exists_mem_of_ne_nil xs hxs
  exact hlast x hx (heq ▸ hall x hx)

end Double

end StellarWind
