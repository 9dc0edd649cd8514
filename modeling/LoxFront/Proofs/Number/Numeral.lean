import LoxFront.Lexical.Grammar
import LoxFront.Number.Spacing
import LoxFront.Proofs.Number.Text
/-!
# Numerals

A numeral of the grammar is a run of digits, or two with a point between
them, and what is read of it is its digits in base ten and the length of
the second run (`ofNumeral_digits`, `ofNumeral_point`). A decimal is written
as such a numeral (`spells_chars`), and reading it back gives the decimal,
digits and places alike (`ofNumeral_chars`).
-/

namespace LoxFront

/-- A run of digits holds nothing else. -/
theorem IsDigits.filter_isDigit {digits : List Char} (h : IsDigits digits) :
    digits.filter Char.isDigit = digits :=
  List.filter_eq_self.2 h.2

/-- A point is no digit. -/
theorem IsDigits.point_not_mem {digits : List Char} (h : IsDigits digits) : '.' ∉ digits :=
  fun hmem => absurd (h.2 _ hmem) (by decide)

/-- Looking for a point goes past a run of digits. -/
theorem IsDigits.dropWhile_point {digits : List Char} (h : IsDigits digits) (rest : List Char) :
    (digits ++ rest).dropWhile (· != '.') = rest.dropWhile (· != '.') := by
  apply List.dropWhile_append_of_pos
  intro c hc
  simpa using ne_of_mem_of_not_mem hc h.point_not_mem

namespace Decimal

/-! ## Reading -/

/-- **A whole number is read** as its digits in base ten, with no places. -/
theorem ofNumeral_digits {digits : List Char} (h : IsDigits digits) :
    ofNumeral digits = ⟨Nat.ofDigitChars 10 digits 0, 0⟩ := by
  have hdrop := h.dropWhile_point []
  rw [List.append_nil] at hdrop
  rw [ofNumeral, h.filter_isDigit, hdrop]
  rfl

/-- **A numeral with a point is read** as the digits of both runs in base ten,
with as many places as the second is long. -/
theorem ofNumeral_point {whole fraction : List Char} (hwhole : IsDigits whole)
    (hfraction : IsDigits fraction) :
    ofNumeral (whole ++ '.' :: fraction) =
      ⟨Nat.ofDigitChars 10 (whole ++ fraction) 0, fraction.length⟩ := by
  have hfilter : (whole ++ '.' :: fraction).filter Char.isDigit = whole ++ fraction := by
    rw [List.filter_append, List.filter_cons_of_neg (by decide), hwhole.filter_isDigit,
      hfraction.filter_isDigit]
  rw [ofNumeral, hfilter, hwhole.dropWhile_point]
  rfl

/-! ## Writing -/

/-- A number in base ten is a run of digits. -/
theorem isDigits_toDigits (n : Nat) : IsDigits (Nat.toDigits 10 n) :=
  ⟨Nat.toDigits_ne_nil, fun _ => Nat.isDigit_of_mem_toDigits (by decide) (by decide)⟩

/-- A fraction is a run of digits, with the zeros in front. -/
theorem isDigits_fraction (places n : Nat) : IsDigits (fraction places n) := by
  refine ⟨List.append_ne_nil_of_right_ne_nil _ Nat.toDigits_ne_nil, fun c hc => ?_⟩
  rcases List.mem_append.1 hc with hzero | hdigit
  · rw [(List.mem_replicate.1 hzero).2]
    decide
  · exact (isDigits_toDigits n).2 c hdigit

/-- The fraction fills its places. -/
theorem length_fraction {places n : Nat} (hplaces : 0 < places) (h : n < 10 ^ places) :
    (fraction places n).length = places := by
  have hfits := (Nat.length_toDigits_le_iff (by decide) hplaces).2 h
  rw [fraction, List.length_append, List.length_replicate]
  omega

/-- Read behind other digits, a fraction moves them up by its length and adds
its number: the zeros in front count for nothing else. -/
theorem ofDigitChars_fraction (places n init : Nat) :
    Nat.ofDigitChars 10 (fraction places n) init =
      10 ^ (fraction places n).length * init + n := by
  rw [fraction, Nat.ofDigitChars_append, Nat.ofDigitChars_replicate_zero,
    Nat.ofDigitChars_eq_ofDigitChars_zero, Nat.ofDigitChars_ten_toDigits, List.length_append,
    List.length_replicate, ← Nat.mul_assoc, ← pow_add, Nat.add_comm (Nat.toDigits 10 n).length]

/-- With places, a decimal is written as what stands in front of them, a point
and the places. -/
theorem chars_succ (digits places : Nat) :
    chars ⟨digits, places + 1⟩ = Nat.toDigits 10 (digits / 10 ^ (places + 1)) ++
      '.' :: fraction (places + 1) (digits % 10 ^ (places + 1)) := rfl

/-- **A decimal is written as a numeral.** -/
theorem spells_chars (d : Decimal) : TokenKind.number.Spells d.chars := by
  obtain ⟨digits, places⟩ := d
  cases places with
  | zero => exact .inl (isDigits_toDigits digits)
  | succ p => exact .inr ⟨_, _, isDigits_toDigits _, isDigits_fraction _ _, chars_succ digits p⟩

/-- What is written of a decimal starts with a digit. -/
theorem exists_chars_cons (d : Decimal) : ∃ c rest, d.chars = c :: rest ∧ c.isDigit = true := by
  obtain hdigits | ⟨whole, fraction, hdigits, -, hchars⟩ := d.spells_chars
  · obtain ⟨c, rest, hcons⟩ := List.exists_cons_of_ne_nil hdigits.1
    exact ⟨c, rest, hcons, hdigits.2 c (by simp [hcons])⟩
  · obtain ⟨c, rest, rfl⟩ := List.exists_cons_of_ne_nil hdigits.1
    exact ⟨c, rest ++ '.' :: fraction, hchars, hdigits.2 c List.mem_cons_self⟩

/-- **A decimal that is written is read back.** -/
theorem ofNumeral_chars (d : Decimal) : ofNumeral d.chars = d := by
  obtain ⟨digits, places⟩ := d
  cases places with
  | zero =>
    refine (ofNumeral_digits (isDigits_toDigits digits)).trans ?_
    rw [Nat.ofDigitChars_ten_toDigits]
  | succ p =>
    have hpart := Nat.mod_lt digits (Nat.pow_pos (n := p + 1) (by decide : 0 < 10))
    have hlength := length_fraction (Nat.succ_pos p) hpart
    rw [chars_succ, ofNumeral_point (isDigits_toDigits _) (isDigits_fraction _ _),
      Nat.ofDigitChars_append, Nat.ofDigitChars_ten_toDigits, ofDigitChars_fraction, hlength,
      Nat.div_add_mod]

end Decimal

end LoxFront
