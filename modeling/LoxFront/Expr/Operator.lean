import LoxFront.Token.Basic
/-!
# Operators

An operator of an expression is a token whose kind allows it that place.
The kind alone decides, not the lexeme, so a token may be made an operator
under any spelling; a token out of place is refused with all that the
message about it says.
-/

namespace LoxFront

/-- How many operands an operator stands with. -/
inductive Arity where
  | binary
  | unary
  deriving DecidableEq

namespace Arity

/-- The name of an arity. -/
def name : Arity → String
  | binary => "binary"
  | unary => "unary"

/-- Whether tokens of this kind are operators of this arity. -/
def admits : Arity → TokenKind → Bool
  | binary, kind => kind.isBinaryOperator
  | unary, kind => kind.isUnaryOperator

end Arity

/-- A token was to be an operator and is none of the arity that the place
asks for. -/
structure OperatorError where
  kind : TokenKind
  lexeme : String
  line : Nat
  expected : Arity
  deriving DecidableEq

namespace OperatorError

/-- The error about a token. -/
def ofToken (t : Token) (expected : Arity) : OperatorError := ⟨t.kind, t.lexeme, t.line, expected⟩

/-- The wording of the error. -/
def message (e : OperatorError) : String :=
  s!"{e.lexeme} ({e.kind.name}) on line {e.line} is not a {e.expected.name} operator"

end OperatorError

/-- A token whose kind makes it an operator of an arity. -/
structure Operator (arity : Arity) where
  /-- The token itself, with its own lexeme and line. -/
  token : Token
  /-- Its kind stands in such places. -/
  admitted : arity.admits token.kind = true
  deriving DecidableEq

/-- An operator between two operands. -/
abbrev BinaryOperator := Operator .binary

/-- An operator before its operand. -/
abbrev UnaryOperator := Operator .unary

namespace Operator

variable {arity : Arity}

/-- **The operator that a token is**, if its kind admits it. -/
def ofToken (t : Token) : Except OperatorError (Operator arity) :=
  if admitted : arity.admits t.kind then .ok ⟨t, admitted⟩
  else .error (.ofToken t arity)

/-- An operator refers to the very token it was made of. -/
theorem token_of_ofToken {t : Token} {o : Operator arity} (h : ofToken t = .ok o) :
    o.token = t := by
  unfold ofToken at h
  split at h
  · cases h; rfl
  · cases h

/-- Operators compare as their tokens do. -/
def equal (o p : Operator arity) : Bool := o.token == p.token

instance : BEq (Operator arity) := ⟨equal⟩

end Operator

end LoxFront
