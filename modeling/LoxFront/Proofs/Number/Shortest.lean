import LoxFront.Proofs.Number.Search
import LoxFront.Value
/-!
# Numbers are shown in their shortest form

A finite number is shown as its shortest decimal behind the sign. A text
that is read as the number has the same sign, and its decimal is read as the
number's magnitude (`readsAs_iff`), so what is said of the decimals of a
magnitude holds of the texts of a number (`display_shortest`).
-/

namespace LoxFront

namespace DecimalText

variable {t : DecimalText} {x : Double}

/-- A text reads as a finite double if it has the sign and its numeral is read
as the magnitude. -/
theorem readsAs_iff : t.ReadsAs x ↔
    t.negative = x.negative ∧ (Decimal.ofNumeral t.numeral).nearest.magnitude = x.magnitude := by
  rw [ReadsAs, numeralValue_eq t.spells, Double.roundsTo_value_iff]
  refine and_congr_right fun _ => ⟨fun h => (congrArg Double.magnitude h).symm, fun h => ?_⟩
  exact Double.ext rfl h.symm

/-- Behind one sign a text is as far from a double as its decimal is from the
magnitude. -/
theorem abs_sub_value (h : t.negative = x.negative) :
    |x.value - t.value| = |Double.valueAt x.magnitude - (Decimal.ofNumeral t.numeral).value| := by
  rw [value, numeralValue_eq t.spells, h]
  cases hsign : x.negative with
  | false => rw [Double.value_of_clear hsign, if_neg Bool.false_ne_true, one_mul]
  | true => rw [Double.value_of_set hsign, if_pos rfl, neg_one_mul, neg_sub_neg, abs_sub_comm]

end DecimalText

namespace Double

/-- The text of a finite double. -/
def decimalText (x : Double) : DecimalText := .ofDecimal x.negative (shortest x.magnitude)

theorem decimalText_chars (x : Double) :
    x.decimalText.chars =
      if x.negative then '-' :: (shortest x.magnitude).chars else (shortest x.magnitude).chars := rfl

/-- The text of a finite double is its decimal text. -/
theorem toList_text_decimalText {x : Double} (hfinite : x.isFinite = true) :
    x.text.toList = x.decimalText.chars := by
  rw [toList_text (isNaN_of_isFinite hfinite), unsignedChars, if_pos hfinite, decimalText_chars]

/-- The numeral in the decimal text of a double is read as the shortest
decimal of its magnitude. -/
theorem ofNumeral_decimalText (x : Double) :
    Decimal.ofNumeral x.decimalText.numeral = shortest x.magnitude :=
  Decimal.ofNumeral_chars _

/-- **What is displayed is tidy.** -/
theorem tidy_decimalText (x : Double) : x.decimalText.Tidy := by
  apply DecimalText.ofDecimal_tidy
  rw [shortest_eq]
  generalize 1074 = finest
  exact Decimal.trimmed_mod_ten _ finest

/-- The sign is written, and no other. -/
theorem minus_mem_decimalText_iff {x : Double} :
    '-' ∈ x.decimalText.chars ↔ x.negative = true := by
  have hnot : '-' ∉ (shortest x.magnitude).chars := fun hmem =>
    (Decimal.isDigit_or_point_of_mem_chars hmem).elim (by decide) (by decide)
  rw [decimalText_chars]
  cases x.negative <;> simp [hnot]

/-- The point of a whole number is not written. -/
theorem point_not_mem_decimalText {x : Double} {n : ℤ} (h : x.value = n) :
    '.' ∉ x.decimalText.chars := by
  have hwhole : valueAt x.magnitude = n.natAbs := by
    rw [← abs_value, h, Nat.cast_natAbs, Int.cast_abs]
  have hplaces := places_shortest_of_whole hwhole
  have hnot : '.' ∉ (shortest x.magnitude).chars := by
    generalize shortest x.magnitude = d at hplaces ⊢
    obtain ⟨digits, places⟩ := d
    cases hplaces
    exact (Decimal.isDigits_toDigits digits).point_not_mem
  rw [decimalText_chars]
  cases x.negative <;> simp [hnot]

end Double

/-- **A number is shown in its shortest form.** The text of a finite number is
read as the number. No decimal text with fewer significant digits is, and
none with as many that is one is closer to the exact value. The text has no
superfluous zero, no point if the value is whole, and a minus sign just for a
set sign bit, also of a zero. -/
theorem display_shortest {x : Double} (hfinite : x.isFinite = true) :
    ∃ t : DecimalText, (Value.number x).display.toList = t.chars ∧ t.ReadsAs x ∧
      (∀ other : DecimalText, other.ReadsAs x → t.significantDigits ≤ other.significantDigits) ∧
      (∀ other : DecimalText, other.ReadsAs x → other.significantDigits = t.significantDigits →
        |x.value - t.value| ≤ |x.value - other.value|) ∧
      t.Tidy ∧ ((∃ n : ℤ, x.value = n) → '.' ∉ (Value.number x).display.toList) ∧
      ('-' ∈ (Value.number x).display.toList ↔ x.negative = true) := by
  have hbound := of_decide_eq_true hfinite
  have hchars : (Value.number x).display.toList = x.decimalText.chars :=
    Double.toList_text_decimalText hfinite
  have hnumeral := x.ofNumeral_decimalText
  have hself : x.decimalText.ReadsAs x :=
    DecimalText.readsAs_iff.2 ⟨rfl, by rw [hnumeral, Double.nearest_shortest hbound]⟩
  refine ⟨x.decimalText, hchars, hself, fun other hother => ?fewest,
    fun other hother hsame => ?closest, x.tidy_decimalText, ?point, ?sign⟩
  case fewest =>
    have hread := (DecimalText.readsAs_iff.1 hother).2
    rw [DecimalText.significantDigits_le_iff, hnumeral]
    exact Double.hasDigits_shortest hbound hread (DecimalText.significantDigits_le_iff.1 (le_refl _))
  case closest =>
    obtain ⟨hsign, hread⟩ := DecimalText.readsAs_iff.1 hother
    rw [DecimalText.abs_sub_value hself.1, DecimalText.abs_sub_value hsign, hnumeral]
    apply Double.abs_sub_value_shortest_le hbound hread
      (DecimalText.significantDigits_le_iff.1 (le_refl _))
    intro s hs
    rwa [hsame, DecimalText.significantDigits_le_iff, hnumeral]
  case point =>
    rintro ⟨n, hn⟩
    rw [hchars]
    exact Double.point_not_mem_decimalText hn
  case sign =>
    rw [hchars]
    exact Double.minus_mem_decimalText_iff

/-- Minus `2 ^ 60` is shown with three zeros in place of its last digits, and
can be written with no fewer than the other 16. -/
theorem display_shortest_filled :
    (Value.number (.ofBits 0xC3B0000000000000)).display = "-1152921504606847000" ∧
    ∀ other : DecimalText, other.ReadsAs (.ofBits 0xC3B0000000000000) →
      16 ≤ other.significantDigits := by
  have hdisplay : (Value.number (.ofBits 0xC3B0000000000000)).display = "-1152921504606847000" := by
    decide +kernel
  obtain ⟨t, hchars, hself, hfewest, -⟩ :=
    display_shortest (x := .ofBits 0xC3B0000000000000) (by decide)
  have hsplit : "-1152921504606847000".toList = '-' :: "1152921504606847000".toList := by decide
  have hnegative : t.negative = true := hself.1
  rw [hdisplay, hsplit, DecimalText.chars, if_pos hnegative] at hchars
  have hcount : t.significantDigits = 16 := by
    rw [DecimalText.significantDigits, ← (List.cons.inj hchars).2]
    decide +kernel
  exact ⟨hdisplay, fun other hother => hcount ▸ hfewest other hother⟩

end LoxFront
