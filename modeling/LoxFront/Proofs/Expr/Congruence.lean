import Mathlib.Data.List.Forall2
import LoxFront.Expr.Piece
import LoxFront.Proofs.Expr.Equality
/-!
# What visitors see of equal trees

Equal trees are the same once cleared. The record of a tree depends on its
shape alone, so equal trees have the same. The printed form is made of
pieces, and the pieces of a cleared tree are those of the tree with their
values cleared (`pieces_map`), since no lexeme is changed. So the pieces of
equal trees are the same but for zeros, each of which may have either sign
(`forall₂_pieces`).
-/

namespace LoxFront

/-- A zero is written with its sign. -/
theorem Double.text_of_isZero {x : Double} (h : x.isZero = true) :
    x.text = if x.negative then "-0" else "0" := by
  have hzeros : ∀ negative, (⟨negative, 0, by decide⟩ : Double).text =
      if negative then "-0" else "0" := by decide +kernel
  obtain ⟨negative, magnitude, hlt⟩ := x
  obtain rfl : magnitude = 0 := eq_of_beq h
  exact hzeros negative

/-- The zeros are displayed as `0` and `-0`. -/
theorem Value.display_of_isZero {v : Value} (h : v.isZero = true) :
    v.display = "0" ∨ v.display = "-0" := by
  cases v with
  | number x =>
    rw [display, Double.text_of_isZero h]
    cases x.negative with
    | false => exact .inl rfl
    | true => exact .inr rfl
  | _ => cases h

/-- Only a zero is changed by clearing. -/
theorem Value.clear_of_not_isZero {v : Value} (h : v.isZero = false) : v.clear = v := by
  cases v with
  | number x => exact congrArg number (Double.clear_of_not_isZero h)
  | _ => rfl

/-- Clearing keeps the lexeme of an operator, and so the name of its node. -/
theorem Operator.lexeme_clear {arity : Arity} (o : Operator arity) :
    o.clear.token.lexeme = o.token.lexeme := o.token.lexeme_clear

namespace Piece

theorem join_parts (parts : List (List Piece)) :
    String.join ((parts.flatMap (mark " " :: ·)).map text) =
      String.join ((parts.map fun part => String.join (part.map text)).map (" " ++ ·)) := by
  induction parts with
  | nil => rfl
  | cons part parts ih =>
    simp only [List.flatMap_cons, List.map_append, List.map_cons, String.join_append,
      String.join_cons, ih, text]

/-- A node's pieces make up the node. -/
theorem join_parenthesized (name : String) (parts : List (List Piece)) :
    String.join ((parenthesized name parts).map text) =
      LoxFront.parenthesized name (parts.map fun part => String.join (part.map text)) := by
  simp only [parenthesized, LoxFront.parenthesized, List.map_cons, List.map_append, List.map_nil,
    String.join_cons, String.join_append, String.join_nil, String.append_empty, join_parts, text,
    String.append_assoc]

/-- Changing values passes through a node, as its marks hold none. -/
theorem map_parenthesized (onValue : Value → Value) (name : String) (parts : List (List Piece)) :
    (parenthesized name parts).map (map onValue) =
      parenthesized name (parts.map (List.map (map onValue))) := by
  simp only [parenthesized, List.map_cons, List.map_append, List.map_nil, List.map_flatMap,
    List.flatMap_map, map]

/-- Pieces are the same once their values are cleared if they are the same
or both are zeros. -/
theorem map_clear_eq_iff {p q : Piece} :
    p.map Value.clear = q.map Value.clear ↔ p.SameOrZeros q := by
  cases p <;> cases q <;> simp [map, SameOrZeros, isZero, Value.clear_eq_iff]

end Piece

namespace Expr

variable {a b e : Expr}

/-! ## Pieces -/

theorem pieces_binary {o : BinaryOperator} {left right : Expr} :
    (binary o left right).pieces =
      Piece.parenthesized o.token.lexeme [left.pieces, right.pieces] := rfl

theorem pieces_grouping : (grouping e).pieces = Piece.parenthesized "group" [e.pieces] := rfl

theorem pieces_unary {o : UnaryOperator} :
    (unary o e).pieces = Piece.parenthesized o.token.lexeme [e.pieces] := rfl

/-- **The pieces of a tree make up its printed form.** -/
theorem join_pieces (e : Expr) : String.join (e.pieces.map Piece.text) = e.print := by
  induction e with
  | binary o left right ihleft ihright =>
    rw [pieces_binary, Piece.join_parenthesized, List.map_cons, List.map_singleton, ihleft, ihright]
    rfl
  | grouping inner ih =>
    rw [pieces_grouping, Piece.join_parenthesized, List.map_singleton, ih]
    rfl
  | literal v => exact String.empty_append
  | unary o operand ih =>
    rw [pieces_unary, Piece.join_parenthesized, List.map_singleton, ih]
    rfl

/-- **Only values change in the pieces** when values change in a tree, and
operators keep their lexemes. -/
theorem pieces_map {onBinary : BinaryOperator → BinaryOperator}
    {onUnary : UnaryOperator → UnaryOperator} (onValue : Value → Value)
    (hbinary : ∀ o, (onBinary o).token.lexeme = o.token.lexeme)
    (hunary : ∀ o, (onUnary o).token.lexeme = o.token.lexeme) (e : Expr) :
    (e.map onBinary onUnary onValue).pieces = e.pieces.map (Piece.map onValue) := by
  induction e with
  | binary o left right ihleft ihright =>
    rw [map, pieces_binary, pieces_binary, Piece.map_parenthesized, List.map_cons,
      List.map_singleton, hbinary, ihleft, ihright]
  | grouping inner ih =>
    rw [map, pieces_grouping, pieces_grouping, Piece.map_parenthesized, List.map_singleton, ih]
  | literal v => rfl
  | unary o operand ih =>
    rw [map, pieces_unary, pieces_unary, Piece.map_parenthesized, List.map_singleton, hunary, ih]

/-- **Clearing a tree clears its pieces**, one by one. -/
theorem pieces_clear (e : Expr) : e.clear.pieces = e.pieces.map (Piece.map Value.clear) :=
  pieces_map Value.clear Operator.lexeme_clear Operator.lexeme_clear e

/-- Of the pieces, clearing the operators as well changes nothing. -/
theorem pieces_clearLiterals (e : Expr) : e.clearLiterals.pieces = e.clear.pieces :=
  (pieces_map Value.clear (fun _ => rfl) (fun _ => rfl) e).trans (pieces_clear e).symm

/-- Clearing the tokens of operators as well makes no difference to what is
printed. -/
theorem print_clearLiterals (e : Expr) : e.clearLiterals.print = e.clear.print := by
  rw [← join_pieces, pieces_clearLiterals, join_pieces]

/-- A tree without a zero among its literals stays as it is. -/
theorem clearLiterals_eq_self (h : ∀ v ∈ e.values, v.isZero = false) : e.clearLiterals = e := by
  induction e with
  | binary o left right ihleft ihright =>
    rw [values, List.forall_mem_append] at h
    exact congrArg₂ (binary o) (ihleft h.1) (ihright h.2)
  | grouping inner ih => exact congrArg grouping (ih h)
  | literal v => exact congrArg literal (Value.clear_of_not_isZero (h v List.mem_cons_self))
  | unary o operand ih => exact congrArg (unary o) (ih h)

/-- **Trees that are the same once cleared differ in the signs of zeros**
when they are printed, and in nothing else. -/
theorem forall₂_pieces (h : a.clear = b.clear) :
    List.Forall₂ Piece.SameOrZeros a.pieces b.pieces := by
  have hcleared : a.pieces.map (Piece.map Value.clear) = b.pieces.map (Piece.map Value.clear) := by
    rw [← pieces_clear, ← pieces_clear, h]
  rw [← List.forall₂_eq_eq_eq, List.forall₂_map_left_iff, List.forall₂_map_right_iff] at hcleared
  exact hcleared.imp fun _ _ => Piece.map_clear_eq_iff.1

/-! ## Shapes -/

/-- Trees of one shape have one tally. -/
theorem SameShape.tally_eq (h : a.SameShape b) : a.tally = b.tally := by
  have hcount : a.tally.count = b.tally.count := by
    rw [← length_record, ← length_record, h.record_eq]
  exact congrArg₂ Tally.mk h.record_eq hcount

/-- **Trees of one shape are visited alike.** -/
theorem SameShape.visit_noting_eq (h : a.SameShape b) :
    a.visit Visitor.noting = b.visit Visitor.noting := by
  funext noted
  exact (run_noting a noted).trans (h.tally_eq ▸ (run_noting b noted).symm)

/-- Trees of one form have one shape. -/
theorem SameForm.sameShape (h : a.SameForm b) : a.SameShape b := by
  induction h with
  | binary _ _ _ _ ihleft ihright => exact .binary ihleft ihright
  | grouping _ ih => exact .grouping ih
  | literal _ => exact .literal
  | unary _ _ _ ih => exact .unary ih

/-- **What visitors see of trees.** Equal trees have one tally, and to note
the nodes of one is to note those of the other. They are printed alike if
their literals are cleared, and so as they are if no literal is a zero.
Otherwise their printed forms, of which each is made up of the pieces of
the tree, differ in the signs of zeros at most. Trees of one form, whatever
the lines and the values of their operators' tokens, are printed alike and
have one tally. -/
theorem visits_congr (a b : Expr) :
    ((a == b) = true →
      a.tally = b.tally ∧ a.visit Visitor.noting = b.visit Visitor.noting ∧
      a.clearLiterals.print = b.clearLiterals.print ∧
      ((∀ v ∈ a.values ++ b.values, v.isZero = false) → a.print = b.print) ∧
      List.Forall₂ Piece.SameOrZeros a.pieces b.pieces) ∧
    (∀ e : Expr, String.join (e.pieces.map Piece.text) = e.print) ∧
    (∀ v : Value, v.isZero = true → v.display = "0" ∨ v.display = "-0") ∧
    (a.SameForm b → a.print = b.print ∧ a.tally = b.tally ∧
      a.visit Visitor.noting = b.visit Visitor.noting) := by
  refine ⟨fun hequal => ?equal, join_pieces, fun _ => Value.display_of_isZero, fun hform => ?form⟩
  case equal =>
    have hclear : a.clear = b.clear := (beq_iff.1 hequal).1
    have hshape : a.SameShape b := (clear_eq_iff.1 hclear).1
    have hprint : a.clearLiterals.print = b.clearLiterals.print := by
      rw [print_clearLiterals, print_clearLiterals, hclear]
    refine ⟨hshape.tally_eq, hshape.visit_noting_eq, hprint, fun hvalues => ?_,
      forall₂_pieces hclear⟩
    -- without zeros, the trees are what they are with their literals cleared
    rw [List.forall_mem_append] at hvalues
    rw [← clearLiterals_eq_self hvalues.1, hprint, clearLiterals_eq_self hvalues.2]
  case form =>
    exact ⟨hform.print_eq, hform.sameShape.tally_eq, hform.sameShape.visit_noting_eq⟩

/-- The two zeros are equal as trees, and are not printed alike. -/
example :
    let zero := literal (.number (.ofBits 0))
    let minusZero := literal (.number (.ofBits 0x8000000000000000))
    (zero == minusZero) = true ∧ zero.print = "0" ∧ minusZero.print = "-0" := by
  decide +kernel

end Expr

end LoxFront
