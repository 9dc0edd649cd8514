import LoxFront.Expr.Clear
import LoxFront.Expr.Print
/-!
# The pieces of a printed tree

A printed tree is made of its values and of what is written around them:
parentheses, names and blanks. In its pieces each value still stands as
the value it is, so that it can be told from a piece of text that is
written as the value is displayed.
-/

namespace LoxFront

/-- A piece of a printed tree. -/
inductive Piece where
  | mark (s : String)
  | value (v : Value)

namespace Piece

/-- How a piece is written. -/
def text : Piece → String
  | mark s => s
  | value v => v.display

/-- Whether a piece is a zero of the tree, and not just written like one. -/
def isZero : Piece → Bool
  | mark _ => false
  | value v => v.isZero

/-- Pieces that are the same, or are zeros both, of whatever sign. -/
def SameOrZeros (p q : Piece) : Prop := p = q ∨ p.isZero = true ∧ q.isZero = true

/-- A piece, with its value changed. -/
def map (onValue : Value → Value) : Piece → Piece
  | mark s => mark s
  | value v => value (onValue v)

/-- A node in parentheses: its name, and its parts with a blank before
each. -/
def parenthesized (name : String) (parts : List (List Piece)) : List Piece :=
  mark ("(" ++ name) :: (parts.flatMap (mark " " :: ·) ++ [mark ")"])

end Piece

/-- The visitor that lists the pieces. -/
def Visitor.pieces : Visitor (List Piece) where
  binary operator left right := Piece.parenthesized operator.token.lexeme [left, right]
  grouping inner := Piece.parenthesized "group" [inner]
  literal value := [.value value]
  unary operator operand := Piece.parenthesized operator.token.lexeme [operand]

/-- The pieces of a printed tree, from left to right. -/
def Expr.pieces (e : Expr) : List Piece := e.visit Visitor.pieces

end LoxFront
