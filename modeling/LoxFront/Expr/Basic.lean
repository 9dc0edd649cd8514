import LoxFront.Expr.Operator
/-!
# Expressions

The tree of an expression: operators over operands, groupings and
literals. Trees compare (`==`) node by node, operators by their tokens and
literals as values, hence not reflexively: a tree that holds a NaN, be it
in a literal or in the token of an operator, differs from itself.
-/

namespace LoxFront

/-- An expression. -/
inductive Expr where
  | binary (operator : BinaryOperator) (left right : Expr)
  | grouping (inner : Expr)
  | literal (value : Value)
  | unary (operator : UnaryOperator) (operand : Expr)
  deriving DecidableEq

namespace Expr

/-- Trees are equal when they have one shape and are equal at every
node. -/
def equal : Expr → Expr → Bool
  | binary o l r, binary o' l' r' => o == o' && equal l l' && equal r r'
  | grouping e, grouping e' => equal e e'
  | literal v, literal v' => v == v'
  | unary o e, unary o' e' => o == o' && equal e e'
  | _, _ => false

instance : BEq Expr := ⟨equal⟩

end Expr

end LoxFront
