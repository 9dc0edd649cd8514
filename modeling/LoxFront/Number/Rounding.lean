import LoxFront.Number.Double
import Mathlib.Algebra.Order.Field.Rat
import Mathlib.Algebra.Ring.Int.Parity
/-!
# Rounding

What a numeral is worth is a rational number, and so is what a finite
double is worth. Here both are said by the place of each digit and by the
fields of the bits, without the whole numbers of units in which the doubles
are compared elsewhere; and so is which double a number is rounded to
(`Double.RoundsTo`).
-/

namespace LoxFront

/-! ## Numerals -/

/-- What a digit is worth. -/
def digitValue (c : Char) : ℕ := c.toNat - '0'.toNat

/-- A run of digits before a point: each is worth ten times the next. -/
def wholeValue : List Char → ℚ
  | [] => 0
  | c :: rest => digitValue c * 10 ^ rest.length + wholeValue rest

/-- A run of digits behind a point: the first is worth tenths, and each ten
times the next. -/
def fractionValue : List Char → ℚ
  | [] => 0
  | c :: rest => (digitValue c + fractionValue rest) / 10

/-- **What a numeral is worth.** -/
def numeralValue (numeral : List Char) : ℚ :=
  wholeValue (numeral.takeWhile (· != '.')) + fractionValue (numeral.dropWhile (· != '.')).tail

namespace Double

/-! ## Values of doubles -/

/-- The exponent field, of eleven bits. -/
def exponentField (x : Double) : ℕ := x.magnitude / 2 ^ 52

/-- The fraction field, of 52 bits. -/
def fractionField (x : Double) : ℕ := x.magnitude % 2 ^ 52

/-- The significand as a whole number: the fraction field, with a bit
before it unless the exponent field is zero. -/
def significand (x : Double) : ℕ :=
  if x.exponentField = 0 then x.fractionField else 2 ^ 52 + x.fractionField

/-- The power of two that the last bit of the significand is worth. It is
the same for the two lowest exponent fields. -/
def lastPlace (x : Double) : ℤ := max x.exponentField 1 - 1075

/-- **What a finite double is worth.** -/
def value (x : Double) : ℚ :=
  (if x.negative then -1 else 1) * (x.significand * 2 ^ x.lastPlace)

/-- Zero with a clear sign bit. -/
def zero : Double := ⟨false, 0, by decide⟩

/-- Infinity with a clear sign bit. -/
def infinity : Double := ⟨false, infinityMagnitude, by decide⟩

/-! ## Rounding to nearest -/

/-- From here on numbers are rounded to infinity: the middle of the greatest
finite double and `2 ^ 1024`. -/
def overflowBound : ℚ := 2 ^ 1024 - 2 ^ 970

/-- **A number is rounded to this double**: to infinity if it is out of
bounds, and otherwise to the finite double that no finite double is nearer
than, which has an even significand if one of another value is as near. The
number is none below zero, so the sign bit is clear. -/
def RoundsTo (q : ℚ) (x : Double) : Prop :=
  x.negative = false ∧
    if overflowBound ≤ q then x = infinity
    else x.isFinite = true ∧ ∀ y : Double, y.isFinite = true →
      |q - x.value| ≤ |q - y.value| ∧
        (|q - x.value| = |q - y.value| → x.value ≠ y.value → Even x.significand)

end Double

end LoxFront
