import LoxFront.Number.Decimal
import LoxFront.Number.Double
/-!
# The double nearest to a decimal

A decimal is read as the double nearest to it; a decimal half-way between
two doubles is read as the one with the even magnitude, and what lies at
or beyond the middle of the greatest double and `2 ^ 1024` as infinity.
The two doubles around the decimal are found exactly, in units of
`2 ^ (-1074)`, so no length of a numeral costs any accuracy.
-/

namespace LoxFront

namespace Double

/-- Of a magnitude and the next one, the one nearer to `num / den` units, a
tie going to the even one. -/
def nearerMagnitude (num den low : Nat) : Nat :=
  match compare (2 * num) ((unitsAt low + unitsAt (low + 1)) * den) with
  | .lt => low
  | .gt => low + 1
  | .eq => if low % 2 = 0 then low else low + 1

/-- The magnitude nearest to `num / den` units. Here infinity's magnitude is
a magnitude like all others. -/
def nearestMagnitude (num den : Nat) : Nat :=
  nearerMagnitude num den (floorMagnitude (num / den))

end Double

namespace Decimal

/-- **The double a decimal is read as**: the nearest one, with a clear
sign bit, and infinity for everything beyond the finite doubles. -/
def nearest (d : Decimal) : Double where
  negative := false
  magnitude := min (Double.nearestMagnitude (d.digits * Nat.pow 2 1074) (Nat.pow 10 d.places))
    Double.infinityMagnitude
  magnitude_lt := Nat.lt_of_le_of_lt (Nat.min_le_right _ _) (by decide)

/-- No decimal is read as a negative number. -/
@[simp] theorem nearest_negative (d : Decimal) : d.nearest.negative = false := rfl

/-- No decimal is read as a NaN. -/
@[simp] theorem isNaN_nearest (d : Decimal) : d.nearest.isNaN = false :=
  decide_eq_false (Nat.not_lt.2 (Nat.min_le_right _ _))

end Decimal

end LoxFront
