import LoxFront.Lexical.Grammar
import LoxFront.Number.Rounding
import Mathlib.Data.List.DropRight
/-!
# Decimal texts

What a finite double can be written as: a numeral, with a minus sign before
it or without one. Such a text is worth a number, has so many significant
digits, and is read as a double, so the texts of one double can be
compared.
-/

namespace LoxFront

/-- A decimal text. There is no exponent, and no sign other than the minus
sign. -/
structure DecimalText where
  /-- Whether there is a minus sign. -/
  negative : Bool
  /-- The digits, and the point if there is one. -/
  numeral : List Char
  spells : TokenKind.number.Spells numeral

/-- The double with a clear sign bit and otherwise the same bits. -/
def Double.unsigned (x : Double) : Double := { x with negative := false }

namespace DecimalText

/-- The text written out. -/
def chars (t : DecimalText) : List Char := if t.negative then '-' :: t.numeral else t.numeral

/-- **What a text is worth.** -/
def value (t : DecimalText) : ℚ := (if t.negative then -1 else 1) * numeralValue t.numeral

/-- **How many significant digits a text has**: those from the first to the
last that is no zero. -/
def significantDigits (t : DecimalText) : ℕ :=
  (((t.numeral.filter Char.isDigit).dropWhile (· == '0')).rdropWhile (· == '0')).length

/-- **A text is read as this double**: the numeral is rounded, and the minus
sign is the sign bit. So minus zero is read of a zero with a minus sign. -/
def ReadsAs (t : DecimalText) (x : Double) : Prop :=
  t.negative = x.negative ∧ Double.RoundsTo (numeralValue t.numeral) x.unsigned

/-- **No zero is superfluous.** -/
structure Tidy (t : DecimalText) : Prop where
  /-- A zero comes first only on its own or before the point. -/
  leading : ∀ c rest, t.numeral = '0' :: c :: rest → c = '.'
  /-- A fraction ends in no zero. -/
  trailing : '.' ∈ t.numeral → t.numeral.getLast? ≠ some '0'

end DecimalText

end LoxFront
