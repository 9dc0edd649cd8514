import LoxFront.Expr.Form
/-!
# NaNs, and zeros without their sign

Two things set the comparison of numbers apart from their being the same:
a NaN is equal to nothing, and zero has two signs. Either may stand
wherever a tree holds a value, in a literal or in the token of an operator.
Clearing a tree takes the sign off its zeros and leaves all else as it is,
so that trees are the same, once cleared, when they are the same with the
two zeros taken as one number.
-/

namespace LoxFront

/-- Both zeros, of either sign. -/
def Double.isZero (x : Double) : Bool := x.magnitude == 0

/-- A number, which is without its sign if it is a zero. -/
def Double.clear (x : Double) : Double := { x with negative := x.negative && !x.isZero }

namespace Value

/-- Whether a value is a NaN. -/
def isNaN : Value → Bool
  | number x => x.isNaN
  | _ => false

/-- Whether a value is a zero. -/
def isZero : Value → Bool
  | number x => x.isZero
  | _ => false

/-- A value, without its sign if it is a zero. -/
def clear : Value → Value
  | number x => number x.clear
  | v => v

end Value

namespace Token

/-- Whether the value of a token is a NaN. -/
def hasNaN (t : Token) : Bool := t.literal.any Value.isNaN

/-- A token, with its value cleared. -/
def clear (t : Token) : Token := { t with literal := t.literal.map Value.clear }

@[simp] theorem kind_clear (t : Token) : t.clear.kind = t.kind := rfl

@[simp] theorem lexeme_clear (t : Token) : t.clear.lexeme = t.lexeme := rfl

end Token

/-- An operator, with its token cleared. -/
def Operator.clear {arity : Arity} (o : Operator arity) : Operator arity where
  token := o.token.clear
  admitted := by rw [Token.kind_clear, o.admitted]

namespace Expr

/-- A tree of the same shape, with other operators and values. -/
def map (onBinary : BinaryOperator → BinaryOperator) (onUnary : UnaryOperator → UnaryOperator)
    (onValue : Value → Value) : Expr → Expr
  | binary o left right =>
    binary (onBinary o) (left.map onBinary onUnary onValue) (right.map onBinary onUnary onValue)
  | grouping inner => grouping (inner.map onBinary onUnary onValue)
  | literal v => literal (onValue v)
  | unary o operand => unary (onUnary o) (operand.map onBinary onUnary onValue)

/-- **Whether a NaN stands anywhere in a tree**, in a literal or in the
token of an operator. -/
def hasNaN (e : Expr) : Bool := e.values.any Value.isNaN || e.operatorTokens.any Token.hasNaN

/-- **A tree with all its values cleared**, those of its operators' tokens
too. -/
def clear (e : Expr) : Expr := e.map Operator.clear Operator.clear Value.clear

/-- A tree with its literals cleared. The operators stay as they are. -/
def clearLiterals (e : Expr) : Expr := e.map id id Value.clear

end Expr

end LoxFront
