import LoxFront.Number.Rounding
import LoxFront.Proofs.Lexical.Cut
import LoxFront.Proofs.Number.ReadBack
import Mathlib.Tactic.FieldSimp
/-!
# Values of numerals and doubles

A decimal is read in whole numbers of units, and what is said of numbers in
general is said of their values, which are rational. The value of a numeral
is that of the decimal it is read as (`numeralValue_eq`), and the value of a
finite double is that of its magnitude behind the sign (`value_of_clear`,
`value_of_set`).
-/

namespace LoxFront

/-! ## The value of a numeral -/

/-- The first digit counts by the power of ten for the digits behind it. -/
theorem ofDigitChars_cons_zero (c : Char) (rest : List Char) :
    Nat.ofDigitChars 10 (c :: rest) 0 =
      digitValue c * 10 ^ rest.length + Nat.ofDigitChars 10 rest 0 := by
  have hinit := @Nat.ofDigitChars_eq_ofDigitChars_zero rest (digitValue c)
  rw [Nat.ofDigitChars_cons, Nat.mul_zero, Nat.zero_add, Nat.mul_comm (digitValue c)]
  exact hinit

/-- The digits in front of a point are worth what they are in base ten. -/
theorem wholeValue_eq (digits : List Char) :
    wholeValue digits = (Nat.ofDigitChars 10 digits 0 : ℕ) := by
  induction digits with
  | nil => rfl
  | cons c rest ih =>
    rw [wholeValue, ih, ofDigitChars_cons_zero]
    push_cast
    rfl

/-- The digits behind a point are worth what they are in base ten, over a
power of ten with their number of places. -/
theorem fractionValue_eq (digits : List Char) :
    fractionValue digits = (Nat.ofDigitChars 10 digits 0 : ℕ) / 10 ^ digits.length := by
  induction digits with
  | nil => simp [fractionValue]
  | cons c rest ih =>
    rw [fractionValue, ih, ofDigitChars_cons_zero, List.length_cons]
    push_cast
    field_simp
    ring

/-- The value of a decimal. -/
def Decimal.value (d : Decimal) : ℚ := d.digits / 10 ^ d.places

/-- A decimal has no sign, so its value is not negative. -/
theorem Decimal.value_nonneg (d : Decimal) : 0 ≤ d.value :=
  div_nonneg (Nat.cast_nonneg _) (pow_nonneg (by norm_num) _)

namespace Decimal

/-- Decimals compare as their digits do, each moved up by the places of the
other. -/
theorem value_le_iff {c d : Decimal} :
    c.value ≤ d.value ↔ c.digits * 10 ^ d.places ≤ d.digits * 10 ^ c.places := by
  have hten : ∀ n : ℕ, (0 : ℚ) < 10 ^ n := pow_pos (by norm_num)
  rw [value, value, div_le_div_iff₀ (hten c.places) (hten d.places)]
  norm_cast

/-- Trimming keeps the value. -/
theorem value_trimmed (digits places : ℕ) :
    (trimmed digits places).value = (⟨digits, places⟩ : Decimal).value := by
  have hdigits := digits_trimmed digits places
  have hplaces := Nat.sub_add_cancel (places_trimmed_le digits places)
  have hcross : (trimmed digits places).digits * 10 ^ places =
      digits * 10 ^ (trimmed digits places).places := by
    generalize trimmed digits places = d at hdigits hplaces ⊢
    rw [← hdigits, Nat.pow_eq, Nat.mul_assoc, ← pow_add, hplaces]
  exact le_antisymm (value_le_iff.2 hcross.le) (value_le_iff.2 hcross.ge)

end Decimal

/-- What stands in front of the first point is the run of digits. -/
theorem IsDigits.takeWhile_point {digits : List Char} (h : IsDigits digits) (rest : List Char) :
    (digits ++ '.' :: rest).takeWhile (· != '.') = digits := by
  have hdigits : ∀ c ∈ digits, (c != '.') = true := bne_of_not_mem h.point_not_mem
  exact takeWhile_append_of_halts hdigits (halts_cons.2 rfl)

/-- **A numeral is worth what the decimal is that is read of it.** -/
theorem numeralValue_eq {numeral : List Char} (h : TokenKind.number.Spells numeral) :
    numeralValue numeral = (Decimal.ofNumeral numeral).value := by
  rcases h with hdigits | ⟨whole, fraction, hwhole, hfraction, rfl⟩
  · have htake := takeWhile_append_of_halts (bne_of_not_mem hdigits.point_not_mem)
      (halts_nil (· != '.'))
    have hdrop := hdigits.dropWhile_point []
    rw [List.append_nil] at htake hdrop
    rw [numeralValue, htake, hdrop, wholeValue_eq, Decimal.ofNumeral_digits hdigits, Decimal.value]
    simp [fractionValue]
  · have hdrop : ('.' :: fraction).dropWhile (· != '.') = '.' :: fraction := rfl
    have hdigits := @Nat.ofDigitChars_eq_ofDigitChars_zero fraction (Nat.ofDigitChars 10 whole 0)
    rw [numeralValue, hwhole.takeWhile_point, hwhole.dropWhile_point, hdrop, List.tail_cons,
      wholeValue_eq, fractionValue_eq, Decimal.ofNumeral_point hwhole hfraction, Decimal.value,
      Nat.ofDigitChars_append, hdigits]
    push_cast
    field_simp

namespace Double

/-! ## The value of a double -/

/-- The value of a magnitude. -/
def valueAt (k : ℕ) : ℚ := unitsAt k / 2 ^ 1074

/-- **Values go up with magnitudes**, so a magnitude is told by its value. -/
theorem valueAt_strictMono : StrictMono valueAt := fun _ _ h =>
  div_lt_div_of_pos_right (Nat.cast_lt.2 (unitsAt_strictMono h)) (pow_pos two_pos 1074)

/-- The magnitude zero is worth zero. -/
theorem valueAt_zero : valueAt 0 = 0 := by
  have hzero : unitsAt 0 = 0 := rfl
  rw [valueAt, hzero, Nat.cast_zero, zero_div]

theorem valueAt_nonneg (k : ℕ) : 0 ≤ valueAt k := by
  rw [← valueAt_zero]
  exact valueAt_strictMono.monotone (Nat.zero_le k)

/-- A significand at its last place is worth what its magnitude counts in
units, for subnormal and for normal doubles alike. -/
theorem significand_mul_eq (x : Double) :
    (x.significand * 2 ^ x.lastPlace : ℚ) = valueAt x.magnitude := by
  have hunits : unitsAt x.magnitude = x.significand * 2 ^ (x.exponentField - 1) := by
    rw [unitsAt_eq, significand, exponentField, fractionField]
    by_cases below : x.magnitude < 2 ^ 52
    · rw [if_pos below, Nat.div_eq_of_lt below, if_pos rfl, Nat.mod_eq_of_lt below]
      exact (Nat.mul_one _).symm
    · rw [if_neg below, if_neg (by omega)]
  have hplace : x.lastPlace = (x.exponentField - 1 : ℕ) - (1074 : ℕ) := by
    rw [lastPlace]
    omega
  rw [valueAt, hunits, hplace, zpow_sub₀ two_ne_zero, zpow_natCast, zpow_natCast, Nat.cast_mul,
    Nat.cast_pow, Nat.cast_ofNat, mul_div_assoc]

/-- With the sign bit clear, a double is worth what its magnitude is. -/
theorem value_of_clear {x : Double} (h : x.negative = false) : x.value = valueAt x.magnitude := by
  rw [value, significand_mul_eq, h, if_neg Bool.false_ne_true, one_mul]

/-- With the sign bit set, a double is worth the negative of what its
magnitude is. -/
theorem value_of_set {x : Double} (h : x.negative = true) : x.value = -valueAt x.magnitude := by
  rw [value, significand_mul_eq, h, if_pos rfl, neg_one_mul]

/-- Without its sign, a value is that of the magnitude. -/
theorem abs_value (x : Double) : |x.value| = valueAt x.magnitude := by
  have hnonneg := valueAt_nonneg x.magnitude
  cases hsign : x.negative with
  | false => rw [value_of_clear hsign, abs_of_nonneg hnonneg]
  | true => rw [value_of_set hsign, abs_neg, abs_of_nonneg hnonneg]

/-- The significand is even when the magnitude is. -/
theorem even_significand_iff (x : Double) : Even x.significand ↔ x.magnitude % 2 = 0 := by
  rw [Nat.even_iff, significand, exponentField, fractionField]
  split <;> omega

end Double

end LoxFront
