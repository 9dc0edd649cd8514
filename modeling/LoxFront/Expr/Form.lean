import LoxFront.Expr.Basic
/-!
# The form of a tree

A tree is made of operators and values. Its form is what is left of it
when it does not matter where the operators' tokens stood and which of its
bits a NaN has: the shape, kind and lexeme at every operator, and the
values, of which all NaNs are one.
-/

namespace LoxFront

namespace Value

/-- A value that a source can denote with a single token, texts left
aside: no sign stands before a number, and every number is finite. -/
def Denoted : Value → Prop
  | nil => True
  | bool _ => True
  | text _ => False
  | number x => x.isFinite = true ∧ x.negative = false

/-- **Values that are one**: the same, or two NaNs. -/
inductive Alike : Value → Value → Prop
  | refl {v : Value} : Alike v v
  | nan {x y : Double} : x.isNaN = true → y.isNaN = true → Alike (number x) (number y)

end Value

namespace Expr

/-- The tokens of the operators of a tree, each before those of its
operands. -/
def operatorTokens : Expr → List Token
  | binary operator left right =>
    operator.token :: (left.operatorTokens ++ right.operatorTokens)
  | grouping inner => inner.operatorTokens
  | literal _ => []
  | unary operator operand => operator.token :: operand.operatorTokens

/-- The values of the literals of a tree, from left to right. -/
def values : Expr → List Value
  | binary _ left right => left.values ++ right.values
  | grouping inner => inner.values
  | literal value => [value]
  | unary _ operand => operand.values

/-- **Trees of one form.** -/
inductive SameForm : Expr → Expr → Prop
  | binary {o p : BinaryOperator} {left right left' right' : Expr} :
      o.token.kind = p.token.kind → o.token.lexeme = p.token.lexeme →
      SameForm left left' → SameForm right right' →
      SameForm (.binary o left right) (.binary p left' right')
  | grouping {inner inner' : Expr} :
      SameForm inner inner' → SameForm (.grouping inner) (.grouping inner')
  | literal {v w : Value} : v.Alike w → SameForm (.literal v) (.literal w)
  | unary {o p : UnaryOperator} {operand operand' : Expr} :
      o.token.kind = p.token.kind → o.token.lexeme = p.token.lexeme →
      SameForm operand operand' → SameForm (.unary o operand) (.unary p operand')

end Expr

end LoxFront
