import LoxFront.Proofs.Lexical.Lexeme
import LoxFront.Proofs.Number.Rounding
/-!
# Number literals are correctly rounded

A number of a scan has a numeral for its lexeme, whatever stands around it,
and its literal is the double this numeral is read as
(`exists_literal_of_number`). Hence what is said of decimals in general
holds of number literals (`scan_number_nearest`).
-/

namespace LoxFront

/-- The lexeme of a number is a numeral, and its literal what that is read
as. -/
theorem exists_literal_of_number {source : String} {t : Token} (h : t ∈ (scan source).tokens)
    (hkind : t.kind = .number) :
    ∃ numeral, TokenKind.number.Spells numeral ∧ t.lexeme.toList = numeral ∧
      t.literal = some (.number (Decimal.ofNumeral numeral).nearest) := by
  rcases isRead_or_eq_eof h with ⟨kind, text, after, line, hcut, rfl⟩ | rfl
  · cases hkind
    exact ⟨text, spells_of_cut hcut, String.toList_ofList, rfl⟩
  · cases hkind

/-- **A number literal is the double nearest to its lexeme.** The lexeme is
a numeral of any length, and its value is rounded to the literal and to no
other double. It is infinity just from `2 ^ 1024 - 2 ^ 970` on and zero just
up to `2 ^ (-1075)`, it is no NaN and has a clear sign bit, and no number of
any source that is worth as much has a smaller literal. -/
theorem scan_number_nearest {source : String} {t : Token} (h : t ∈ (scan source).tokens)
    (hkind : t.kind = .number) :
    TokenKind.number.Spells t.lexeme.toList ∧
    ∃ x : Double, t.literal = some (.number x) ∧
      (∀ y, Double.RoundsTo (numeralValue t.lexeme.toList) y ↔ y = x) ∧
      (x = .infinity ↔ 2 ^ 1024 - 2 ^ 970 ≤ numeralValue t.lexeme.toList) ∧
      (x = .zero ↔ numeralValue t.lexeme.toList ≤ 1 / 2 ^ 1075) ∧
      x.isNaN = false ∧ x.negative = false ∧
      ∀ (other : String) (u : Token) (y : Double), u ∈ (scan other).tokens → u.kind = .number →
        u.literal = some (.number y) →
        numeralValue t.lexeme.toList ≤ numeralValue u.lexeme.toList →
        y.isFinite = true → x.isFinite = true ∧ x.value ≤ y.value := by
  obtain ⟨numeral, hspells, hlexeme, hliteral⟩ := exists_literal_of_number h hkind
  rw [hlexeme, numeralValue_eq hspells]
  refine ⟨hspells, (Decimal.ofNumeral numeral).nearest, hliteral,
    fun _ => Double.roundsTo_value_iff, Double.nearest_eq_infinity_iff,
    Double.nearest_eq_zero_iff, Decimal.isNaN_nearest _, Decimal.nearest_negative _, ?order⟩
  intro other u y hu hukind huliteral hle hfinite
  obtain ⟨greater, hgreater, hulexeme, hread⟩ := exists_literal_of_number hu hukind
  rw [huliteral] at hread
  cases hread
  rw [hulexeme, numeralValue_eq hgreater] at hle
  exact ⟨Double.isFinite_nearest_mono hle hfinite, Double.value_nearest_mono hle⟩

/-- Two numbers of one source, `2 ^ 53 + 1` and `2 ^ 53 + 3`: both lie half-way between
doubles, and the significand to which one goes down and the other up is even. -/
theorem scan_number_nearest_ties :
    (scan "9007199254740993 9007199254740995").tokens =
      [⟨.number, "9007199254740993", some (.number (.ofBits 0x4340000000000000)), 1⟩,
        ⟨.number, "9007199254740995", some (.number (.ofBits 0x4340000000000002)), 1⟩, .eof 1] ∧
    Double.RoundsTo (2 ^ 53 + 1) (.ofBits 0x4340000000000000) ∧
    Double.RoundsTo (2 ^ 53 + 3) (.ofBits 0x4340000000000002) ∧
    (Double.ofBits 0x4340000000000000).value ≤ (Double.ofBits 0x4340000000000002).value := by
  have htokens : (scan "9007199254740993 9007199254740995").tokens =
      [⟨.number, "9007199254740993", some (.number (.ofBits 0x4340000000000000)), 1⟩,
        ⟨.number, "9007199254740995", some (.number (.ofBits 0x4340000000000002)), 1⟩, .eof 1] := by
    decide +kernel
  have hlow : numeralValue "9007199254740993".toList = 2 ^ 53 + 1 := by
    decide +kernel
  have hhigh : numeralValue "9007199254740995".toList = 2 ^ 53 + 3 := by
    decide +kernel
  have hfirst := htokens ▸ List.mem_cons_self
  have hsecond := htokens ▸ List.mem_cons_of_mem _ List.mem_cons_self
  obtain ⟨-, x, hx, hround, -, -, -, -, horder⟩ := scan_number_nearest hfirst rfl
  obtain ⟨-, y, hy, hround', -⟩ := scan_number_nearest hsecond rfl
  cases hx
  cases hy
  rw [hlow] at hround horder
  rw [hhigh] at hround'
  refine ⟨htokens, (hround _).2 rfl, (hround' _).2 rfl, ?_⟩
  refine (horder _ _ _ hsecond rfl rfl ?_ (by decide)).2
  rw [hhigh]
  norm_num

end LoxFront
