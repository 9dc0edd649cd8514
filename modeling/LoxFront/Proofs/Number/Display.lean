import LoxFront.Proofs.Expr.Reading
import LoxFront.Proofs.Number.Literal
/-!
# Numbers are scanned as they are shown

The text a finite number is shown as is a numeral, and scanned on its own it
gives that number again, bit for bit (`scan_text`). So a numeral may be
exchanged for the one its value is shown as: the value is kept, and to
exchange it once more changes nothing (`scan_display_number`). What stands
next to a numeral does not belong to it here; in `1.0.5` the `1` that takes
the place of `1.0` has a point and a digit behind it, and goes on with
them.
-/

namespace LoxFront

/-- What a token is shown as by its value; by its lexeme, if it has none. -/
def Token.shown (t : Token) : String :=
  match t.literal with
  | some value => value.display
  | none => t.lexeme

/-- The token of a number that is shown. -/
theorem shown_token (x : Double) : (Value.number x).token.shown = x.text := rfl

/-- **A number that is shown is scanned as itself**, and as nothing but
itself. -/
theorem scan_text {x : Double} (hfinite : x.isFinite = true) (hsign : x.negative = false) :
    (scan x.text).errors = [] ∧ (scan x.text).tokens = [(Value.number x).token, .eof 1] := by
  rw [scan, (readsAs_number hfinite hsign).scanChars_eq]
  exact ⟨rfl, rfl⟩

/-- **The display of a number scans back to it.** A finite number with a clear
sign bit is shown as a numeral, and the scan of that is one token with all
of the text and the same number. So the lexeme of a number of any scan may
be exchanged for what its value is shown as: the literal stays, and from
then on the lexeme does too. -/
theorem scan_display_number :
    (∀ x : Double, x.isFinite = true → x.negative = false →
      let text := (Value.number x).display
      TokenKind.number.Spells text.toList ∧ (scan text).errors = [] ∧
        (scan text).tokens = [⟨.number, text, some (.number x), 1⟩, .eof 1]) ∧
    ∀ (source : String) (t : Token) (x : Double), t ∈ (scan source).tokens → t.kind = .number →
      t.literal = some (.number x) → x.isFinite = true →
      ∃ once twice : Token,
        (scan t.shown).tokens = [once, .eof 1] ∧ (scan once.shown).tokens = [twice, .eof 1] ∧
        once.kind = .number ∧ once.literal = t.literal ∧
        twice.kind = .number ∧ twice.literal = t.literal ∧ twice.lexeme = once.lexeme := by
  refine ⟨fun x hfinite hsign => ⟨Double.spells_text hfinite hsign, scan_text hfinite hsign⟩, ?_⟩
  intro source t x ht hkind hliteral hfinite
  obtain ⟨numeral, -, -, hread⟩ := exists_literal_of_number ht hkind
  have hx : x = (Decimal.ofNumeral numeral).nearest := by
    rw [hliteral] at hread
    exact Value.number.inj (Option.some.inj hread)
  have hsign : x.negative = false := hx ▸ Decimal.nearest_negative _
  have hscan := (scan_text hfinite hsign).2
  have hshown : t.shown = x.text := by
    rw [Token.shown, hliteral]
    rfl
  refine ⟨(Value.number x).token, (Value.number x).token, ?_, ?_, rfl, hliteral.symm, rfl,
    hliteral.symm, rfl⟩
  · rw [hshown, hscan]
  · rw [shown_token, hscan]

/-- A tenth is shown as `0.1`, however it was written. -/
theorem scan_display_number_tenth :
    (scan "0.100").tokens =
      [⟨.number, "0.100", some (.number (.ofBits 0x3FB999999999999A)), 1⟩, .eof 1] ∧
    (scan "0.1").tokens =
      [⟨.number, "0.1", some (.number (.ofBits 0x3FB999999999999A)), 1⟩, .eof 1] ∧
    ∃ once twice : Token, (scan "0.1").tokens = [once, .eof 1] ∧
      (scan once.shown).tokens = [twice, .eof 1] ∧ twice.lexeme = once.lexeme := by
  have htokens : (scan "0.100").tokens =
      [⟨.number, "0.100", some (.number (.ofBits 0x3FB999999999999A)), 1⟩, .eof 1] := by
    decide +kernel
  have hdisplay : (Value.number (.ofBits 0x3FB999999999999A)).display = "0.1" := by decide +kernel
  have hmem := htokens ▸ List.mem_cons_self
  obtain ⟨hnumbers, hliterals⟩ := scan_display_number
  have hscan := (hnumbers (.ofBits 0x3FB999999999999A) (by decide) (by decide)).2.2
  obtain ⟨once, twice, honce, htwice, -, -, -, -, hlexeme⟩ :=
    hliterals _ _ _ hmem rfl rfl (by decide)
  change (scan (Value.number _).display).tokens = _ at honce
  rw [hdisplay] at hscan honce
  exact ⟨htokens, hscan, once, twice, honce, htwice, hlexeme⟩

end LoxFront
