import Mathlib
import StellarWind.Number.Functions

/-!
# Stored doubles and their values

A double comes back from its pattern, so that what is computed from stored values is the same
as what is computed from the values. The lemmas on patterns come with the whole of Mathlib only
and with none of its single modules, which is why this one module imports all of it.
-/

namespace StellarWind.Binary64

theorem toFloat_ofFloat (x : Float) : (ofFloat x).toFloat = x := Float.ofBits_toBits x

/-- Only the pattern of a value that is not a number can change. -/
theorem toFloat_store [Elementary] (x : Float) : (store x).toFloat = x := by
  unfold store
  split
  · rename_i h
    have hnan := Elementary.isNaN_nan
    rw [Float.isNaN_eq_decide_eq_nan, decide_eq_true_eq] at h hnan
    rw [h, hnan]
  · exact toFloat_ofFloat x

theorem toFloat_least (x y : Binary64) :
    (x.least y).toFloat = StellarWind.least x.toFloat y.toFloat := by
  unfold least StellarWind.least
  split
  · rfl
  · split <;> rfl

theorem toFloat_greatest (x y : Binary64) :
    (x.greatest y).toFloat = StellarWind.greatest x.toFloat y.toFloat := by
  unfold greatest StellarWind.greatest
  split
  · rfl
  · split <;> rfl

end StellarWind.Binary64
