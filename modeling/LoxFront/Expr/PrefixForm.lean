import LoxFront.Expr.Basic
/-!
# The prefix form

The tokens of a tree written with every operator before its operands and
all nodes but the literals in parentheses, all on line 1. It is a second
reading of a tree, beside its printed form: as tokens, not as text.
-/

namespace LoxFront

/-- A token on line 1 without a value. -/
def Token.plain (kind : TokenKind) (lexeme : String) : Token := ⟨kind, lexeme, none, 1⟩

/-- The token that denotes a value in a source. A text is denoted by the
string that holds it. -/
def Value.token : Value → Token
  | nil => .plain (.keyword .nilWord) "nil"
  | bool true => .plain (.keyword .trueWord) "true"
  | bool false => .plain (.keyword .falseWord) "false"
  | text s => ⟨.string, "\"" ++ s ++ "\"", some (.text s), 1⟩
  | number x => ⟨.number, x.text, some (.number x), 1⟩

/-- Tokens in parentheses. -/
def inParentheses (tokens : List Token) : List Token :=
  .plain .leftParen "(" :: (tokens ++ [.plain .rightParen ")"])

namespace Expr

/-- **The prefix form** of a tree. A grouping has the word `group` in the
place of an operator. -/
def prefixForm : Expr → List Token
  | binary operator left right =>
    inParentheses (.plain operator.token.kind operator.token.lexeme ::
      (left.prefixForm ++ right.prefixForm))
  | grouping inner => inParentheses (.plain .identifier "group" :: inner.prefixForm)
  | literal value => [value.token]
  | unary operator operand =>
    inParentheses (.plain operator.token.kind operator.token.lexeme :: operand.prefixForm)

end Expr

end LoxFront
