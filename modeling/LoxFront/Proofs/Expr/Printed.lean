import LoxFront.Expr.Form
import LoxFront.Expr.Print
import LoxFront.Proofs.Lexical.Lexeme
/-!
# What is printed

The characters of a printed tree, node by node, and what is known of the
name a node starts with: an operator that was scanned has the one lexeme of
its kind (`Token.IsRead.lexeme_eq`), and so no blank in it, and no word.
-/

namespace LoxFront

/-! ## Nodes -/

/-- The characters of a node in parentheses, by its name and those of its
parts. -/
def nodeChars (name parts : List Char) : List Char := '(' :: (name ++ ' ' :: parts ++ [')'])

namespace Expr

/-- A binary node is its lexeme and its two operands in parentheses. -/
theorem toList_print_binary (operator : BinaryOperator) (left right : Expr) :
    (binary operator left right).print.toList =
      nodeChars operator.token.lexeme.toList (left.print.toList ++ ' ' :: right.print.toList) := by
  simp [print, visit, Visitor.printer, parenthesized, nodeChars]

/-- A grouping is the word `group` and what is grouped. -/
theorem toList_print_grouping (inner : Expr) :
    (grouping inner).print.toList = nodeChars "group".toList inner.print.toList := by
  simp [print, visit, Visitor.printer, parenthesized, nodeChars]

theorem toList_print_unary (operator : UnaryOperator) (operand : Expr) :
    (unary operator operand).print.toList =
      nodeChars operator.token.lexeme.toList operand.print.toList := by
  simp [print, visit, Visitor.printer, parenthesized, nodeChars]

theorem print_literal (value : Value) : (literal value).print = value.display := rfl

end Expr

/-! ## Operators -/

/-- Kinds of operators have one lexeme. -/
theorem Arity.exists_spelling {arity : Arity} {kind : TokenKind} (h : arity.admits kind = true) :
    ∃ s, kind.spelling? = some s := by
  cases arity <;> cases kind <;> first | exact ⟨_, rfl⟩ | cases h

/-- A kind with one text has no other. -/
theorem TokenKind.Spells.eq_of_spelling {kind : TokenKind} {text : List Char} {s : String}
    (h : kind.Spells text) (hs : kind.spelling? = some s) : text = s.toList := by
  unfold Spells at h
  split at h
  · cases hs
  · cases hs
  · cases hs
  · obtain ⟨s', hs', rfl⟩ := h
    rw [Option.some.inj (hs.symm.trans hs')]

/-- A token that was read has the lexeme of its kind, if there is only
one. -/
theorem Token.IsRead.lexeme_eq {t : Token} {s : String} (h : t.IsRead)
    (hs : t.kind.spelling? = some s) : t.lexeme = s := by
  obtain ⟨kind, text, after, line, hcut, rfl⟩ := h
  have htext : text = s.toList := (spells_of_cut hcut : kind.Spells text).eq_of_spelling hs
  exact htext ▸ String.ofList_toList

namespace Expr

/-- A token of an operator is of a kind that some arity admits. -/
theorem exists_arity_of_mem_operatorTokens {e : Expr} {t : Token} (h : t ∈ e.operatorTokens) :
    ∃ arity : Arity, arity.admits t.kind = true := by
  induction e with
  | binary operator left right ihleft ihright =>
    rw [operatorTokens, List.mem_cons, List.mem_append] at h
    obtain rfl | hleft | hright := h
    · exact ⟨_, operator.admitted⟩
    · exact ihleft hleft
    · exact ihright hright
  | grouping inner ih => exact ih h
  | literal value => cases h
  | unary operator operand ih =>
    rw [operatorTokens, List.mem_cons] at h
    obtain rfl | hoperand := h
    · exact ⟨_, operator.admitted⟩
    · exact ih hoperand

/-- **Operators from scans were read**: the token at the end of a scan is
none. -/
theorem isRead_of_mem_operatorTokens {e : Expr} {t : Token} {source : String}
    (h : t ∈ e.operatorTokens) (hscan : t ∈ (scan source).tokens) : t.IsRead := by
  refine (isRead_or_eq_eof hscan).resolve_right ?_
  rintro rfl
  obtain ⟨arity, hadmits⟩ := exists_arity_of_mem_operatorTokens h
  obtain ⟨s, hs⟩ := Arity.exists_spelling hadmits
  cases hs

end Expr

end LoxFront
