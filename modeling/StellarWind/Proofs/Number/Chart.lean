import StellarWind.Number.Functions

/-!
# A chart of the elementary functions

The platform's functions cannot be evaluated in a proof. Where an example needs the value of a
logarithm, a power or an angle, the value that the platform gives is written in a chart. At all
other places `charted` is the platform's function.
-/

namespace StellarWind

/-- A function with some of its values written out. -/
def written {α : Type} [BEq α] (values : List (α × Float)) (f : α → Float) (x : α) : Float :=
  (values.lookup x).getD (f x)

/-- The double behind `1e15`. -/
def besidePeta : Float := 1000000000000000.125

/-- The platform's functions, with the values that examples ask for written out. -/
@[reducible] def charted : Elementary :=
  { Elementary.platform with
    log := written
      [(1e14, 32.23619130191664), (1e15, 34.538776394910684), (besidePeta, 34.538776394910684),
        (1e18, 41.44653167389282), (infinity, infinity)] Float.log
    log10 := written [(1, 0), (3, 0.47712125471966244)] Float.log10
    pow := fun x y =>
      written [((10, 0.23856062735983122), 1.7320508075688772)] (fun (x, y) => Float.pow x y) (x, y)
    atan2 := fun y x => written
      [((1e9, 0), 1.5707963267948966), ((1e9, 1e11), 0.009999666686665238),
        ((2.575e10, 5e10), 0.47557547271737743), ((5.05e10, 0), 1.5707963267948966),
        ((5.05e10, 1e11), 0.4676396037632291), ((7.525e10, 5e10), 0.9843286414586495),
        ((1e11, 0), 1.5707963267948966), ((1e11, 1e11), 0.7853981633974483)]
      (fun (y, x) => Float.atan2 y x) (y, x) }

end StellarWind
