import LoxFront.Expr.Basic
/-!
# Visitors

A visitor says what each kind of node is worth, given what its children
are worth; `Expr.visit` carries it through a tree and comes to every node
once. The tally is one: it notes each node by its kind, a node before its
children and left before right, and counts them.
-/

namespace LoxFront

/-- What a node is worth, given its content and the worth of its
children. -/
structure Visitor (α : Type) where
  binary : BinaryOperator → α → α → α
  grouping : α → α
  literal : Value → α
  unary : UnaryOperator → α → α

/-- The worth of a tree to a visitor. -/
def Expr.visit {α : Type} (v : Visitor α) : Expr → α
  | binary operator left right => v.binary operator (left.visit v) (right.visit v)
  | grouping inner => v.grouping (inner.visit v)
  | literal value => v.literal value
  | unary operator operand => v.unary operator (operand.visit v)

/-- The kinds of nodes. -/
inductive NodeKind where
  | binary
  | grouping
  | literal
  | unary
  deriving DecidableEq

/-- The letter that stands for a kind of node in a record. -/
def NodeKind.letter : NodeKind → Char
  | binary => 'b'
  | grouping => 'g'
  | literal => 'l'
  | unary => 'u'

/-- Which nodes were visited, in order, and how many. -/
structure Tally where
  record : List NodeKind
  count : Nat
  deriving DecidableEq

namespace Tally

/-- The record as text, a letter for every node. -/
def letters (t : Tally) : String := .ofList (t.record.map NodeKind.letter)

/-- The visitor that takes the tally: a node is noted before what its
children were noted as. -/
def visitor : Visitor Tally where
  binary _ left right :=
    ⟨.binary :: (left.record ++ right.record), 1 + left.count + right.count⟩
  grouping inner := ⟨.grouping :: inner.record, 1 + inner.count⟩
  literal _ := ⟨[.literal], 1⟩
  unary _ operand := ⟨.unary :: operand.record, 1 + operand.count⟩

end Tally

/-- The tally of a tree. -/
def Expr.tally (e : Expr) : Tally := e.visit Tally.visitor

end LoxFront
