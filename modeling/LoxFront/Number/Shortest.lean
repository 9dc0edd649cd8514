import LoxFront.Number.Decimal
import LoxFront.Number.Double
/-!
# The shortest decimal of a double

A double is written with the fewest digits that are read back as the same
double, and of the decimals with so many digits as the one nearest to its
value. All positions are whole multiples of `10 ^ (-1074)`, a unit in which
every double and every decimal in question is a whole number. The search
goes from the grid of one digit to finer ones and tests on each the two
neighbours of the value, because a grid that has any point which reads
back has one of these two.

A number is laid out without an exponent, however long that makes it.
-/

namespace LoxFront

namespace Double

/-- The value of a magnitude in units of `10 ^ (-1074)`. -/
def decimalUnitsAt (magnitude : Nat) : Nat := unitsAt magnitude * Nat.pow 5 1074

/-- Whether `point` units of `10 ^ (-1074)` are read as this magnitude:
the point lies between the middles to the two neighbouring magnitudes, or
on one of them if the magnitude is even. -/
def readsBack (magnitude point : Nat) : Bool :=
  let low := decimalUnitsAt (magnitude - 1) + decimalUnitsAt magnitude
  let high := decimalUnitsAt magnitude + decimalUnitsAt (magnitude + 1)
  if magnitude % 2 = 0 then decide (low ≤ 2 * point ∧ 2 * point ≤ high)
  else decide (low < 2 * point ∧ 2 * point < high)

/-- Of the two multiples of `step` around a magnitude's value, the one
that reads back; if both do, the nearer one, and from the middle the
upper one. -/
def gridPoint? (magnitude step : Nat) : Option Nat :=
  let value := decimalUnitsAt magnitude
  let below := value / step * step
  let above := below + step
  if readsBack magnitude below then
    if readsBack magnitude above && decide (below + above ≤ 2 * value) then some above
    else some below
  else if readsBack magnitude above then some above
  else none

/-- The first point that reads back on the grids from `10 ^ grid` down.
The finest grid holds the value itself. -/
def shortestPoint (magnitude : Nat) : Nat → Nat
  | 0 => decimalUnitsAt magnitude
  | grid + 1 => (gridPoint? magnitude (Nat.pow 10 (grid + 1))).getD (shortestPoint magnitude grid)

/-- **The shortest decimal of a magnitude.** The coarsest grid is the one
on which the value has one digit. -/
def shortest (magnitude : Nat) : Decimal :=
  let value := decimalUnitsAt magnitude
  .trimmed (shortestPoint magnitude ((Nat.toDigits 10 value).length - 1)) 1074

/-- A double written out: the shortest decimal behind the sign, `-` for a
set sign bit. A NaN is written without its sign. -/
def text (x : Double) : String :=
  if x.isNaN then "NaN"
  else
    let unsigned := if x.isFinite then .ofList (shortest x.magnitude).chars else "inf"
    if x.negative then "-" ++ unsigned else unsigned

end Double

end LoxFront
