import LoxFront.Proofs.Expr.Printed
import LoxFront.Proofs.Lexical.Place
/-!
# Operators are told by their spelling

A token is made an operator by its kind, and its lexeme is not looked at.
For tokens of a scan the two come to the same: the kinds of operators have
one lexeme each, which is listed (`Arity.mem_spellings`), and a listed text
is of no other kind (`Arity.exists_kind_of_mem_spellings`). So the tokens
that are made operators are those spelled like one, and the others are
refused with their own kind, lexeme and line (`scan_operators`).
-/

namespace LoxFront

/-- **How the operators of an arity are written.** -/
def Arity.spellings : Arity → List String
  | binary => ["!=", "==", ">", ">=", "<", "<=", "-", "+", "/", "*"]
  | unary => ["!", "-"]

/-! ## Kinds and spellings -/

/-- The one lexeme of an operator's kind is listed. -/
theorem Arity.mem_spellings {arity : Arity} {kind : TokenKind} {s : String}
    (h : arity.admits kind = true) (hs : kind.spelling? = some s) : s ∈ arity.spellings := by
  cases arity <;> cases kind <;> cases h <;> cases hs <;> decide

/-- Each listed text is the spelling of an operator's kind. -/
theorem Arity.exists_kind_of_mem_spellings {arity : Arity} {s : String}
    (h : s ∈ arity.spellings) :
    ∃ kind : TokenKind, arity.admits kind = true ∧ kind.spelling? = some s := by
  have hall : ∀ s ∈ arity.spellings,
      ∃ kind ∈ TokenKind.all, arity.admits kind = true ∧ kind.spelling? = some s := by
    cases arity <;> decide
  obtain ⟨kind, -, hkind⟩ := hall s h
  exact ⟨kind, hkind⟩

theorem Arity.ne_empty_of_mem_spellings {arity : Arity} {s : String} (h : s ∈ arity.spellings) :
    s ≠ "" := by
  rintro rfl
  cases arity <;> exact absurd h (by decide)

/-- **A token that was read is of an operator's kind if it is spelled like
one.** -/
theorem Token.IsRead.admits_iff {t : Token} {arity : Arity} (h : t.IsRead) :
    arity.admits t.kind = true ↔ t.lexeme ∈ arity.spellings := by
  constructor
  · intro hadmits
    obtain ⟨s, hs⟩ := Arity.exists_spelling hadmits
    rw [h.lexeme_eq hs]
    exact Arity.mem_spellings hadmits hs
  · intro hmem
    obtain ⟨kind, hadmits, hspelling⟩ := Arity.exists_kind_of_mem_spellings hmem
    obtain ⟨own, text, after, line, hcut, rfl⟩ := h
    have hlisted : (Rule.token kind).Spells text := by
      have hspells := spells_of_cut (cut_of_spelling hspelling)
      rwa [Token.ofLexeme, String.toList_ofList] at hspells
    -- no text is of two kinds
    obtain rfl : kind = own := Rule.token.inj (hlisted.unique (spells_of_cut hcut))
    exact hadmits

/-- The token at the end of a scan is of no operator's kind, and has no
lexeme. -/
theorem admits_iff_of_mem_tokens {source : String} {t : Token} {arity : Arity}
    (h : t ∈ (scan source).tokens) : arity.admits t.kind = true ↔ t.lexeme ∈ arity.spellings := by
  rcases isRead_or_eq_eof h with hread | rfl
  · exact hread.admits_iff
  · constructor
    · intro hadmits
      cases arity <;> cases hadmits
    · intro hmem
      exact (Arity.ne_empty_of_mem_spellings hmem rfl).elim

/-! ## Operators of tokens -/

namespace Operator

variable {arity : Arity} {t : Token}

/-- A token is made an operator if its kind is admitted, and of no other
token than itself. -/
theorem ofToken_eq_ok_iff {o : Operator arity} : ofToken t = .ok o ↔ o.token = t := by
  constructor
  · exact token_of_ofToken
  · rintro rfl
    exact dif_pos o.admitted

theorem exists_ofToken_iff :
    (∃ o : Operator arity, ofToken t = .ok o) ↔ arity.admits t.kind = true := by
  constructor
  · rintro ⟨o, ho⟩
    rw [← ofToken_eq_ok_iff.1 ho]
    exact o.admitted
  · exact fun hadmits => ⟨⟨t, hadmits⟩, dif_pos hadmits⟩

/-- A token that is refused is refused with its own data. -/
theorem ofToken_eq_error {e : OperatorError} (h : (ofToken t : Except _ (Operator arity)) = .error e) :
    e = ⟨t.kind, t.lexeme, t.line, arity⟩ := by
  unfold ofToken at h
  split at h
  · cases h
  · exact (Except.error.inj h).symm

end Operator

/-- **Operators are told by their spelling.** Of the tokens of a scan, the
one at the end included, those and no others are made operators of an arity
that are spelled like one; the operator refers to the token itself, and a
token that is none is refused with its own kind, lexeme and line. So the
operators of a tree over a scan are spelled like operators. None of them
stands inside a string or a comment, and none is half of a longer text of
the grammar: where it starts, the source is in code and goes on with no
longer text of any rule. -/
theorem scan_operators (source : String) :
    (∀ t ∈ (scan source).tokens, ∀ arity : Arity,
      ((∃ o : Operator arity, Operator.ofToken t = .ok o) ↔ t.lexeme ∈ arity.spellings) ∧
      (∀ o : Operator arity, Operator.ofToken t = .ok o → o.token = t) ∧
      ∀ e, (Operator.ofToken t : Except OperatorError (Operator arity)) = .error e →
        e = ⟨t.kind, t.lexeme, t.line, arity⟩) ∧
    (∀ e : Expr, ∀ t ∈ e.operatorTokens, t ∈ (scan source).tokens →
      ∃ arity : Arity, t.lexeme ∈ arity.spellings) ∧
    ∀ p ∈ placedEvents 0 1 (segments source.toList), ∀ t, p.2 = .token t →
      (∃ arity, ∃ o : Operator arity, o.token = t) →
      modeAt .code source.toList p.1 = .code ∧
        (Rule.token t.kind).Longest t.lexeme.toList (source.toList.drop p.1) := by
  refine ⟨fun t ht arity => ⟨?_, fun o => Operator.token_of_ofToken, ?_⟩, ?_, ?_⟩
  · rw [Operator.exists_ofToken_iff, admits_iff_of_mem_tokens ht]
  · exact fun e => Operator.ofToken_eq_error
  · intro e t hoperator ht
    obtain ⟨arity, hadmits⟩ := Expr.exists_arity_of_mem_operatorTokens hoperator
    exact ⟨arity, (admits_iff_of_mem_tokens ht).1 hadmits⟩
  · exact fun p hp t ht _ => mode_and_longest_of_mem_placedEvents hp ht

/-- Two equals signs behind a mark are no comparison: the first belongs to
the mark, and the second alone is no operator. -/
theorem scan_operators_compound :
    (scan "!==-// *").tokens =
      [⟨.bangEqual, "!=", none, 1⟩, ⟨.equal, "=", none, 1⟩, ⟨.minus, "-", none, 1⟩, .eof 1] ∧
    (∃ o : BinaryOperator, Operator.ofToken ⟨.bangEqual, "!=", none, 1⟩ = .ok o) ∧
    (¬∃ o : BinaryOperator, Operator.ofToken ⟨.equal, "=", none, 1⟩ = .ok o) ∧
    ∃ o : UnaryOperator, Operator.ofToken ⟨.minus, "-", none, 1⟩ = .ok o := by
  have htokens : (scan "!==-// *").tokens =
      [⟨.bangEqual, "!=", none, 1⟩, ⟨.equal, "=", none, 1⟩, ⟨.minus, "-", none, 1⟩, .eof 1] := by
    decide +kernel
  have hoperators := (scan_operators "!==-// *").1
  rw [htokens] at hoperators
  refine ⟨htokens, ?_, ?_, ?_⟩
  · exact (hoperators _ (by simp) .binary).1.2 (by decide)
  · exact mt (hoperators _ (by simp) .binary).1.1 (by decide)
  · exact (hoperators _ (by simp) .unary).1.2 (by decide)

end LoxFront
