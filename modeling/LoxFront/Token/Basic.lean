import LoxFront.Number.Nearest
import LoxFront.Token.Kind
import LoxFront.Value
/-!
# Tokens

A token is a kind, the text that was read (its lexeme), the value that
text denotes if it is a number or a string, and the line on which the text
ends. In a scan the value is a function of kind and lexeme
(`TokenKind.literal?`), which is how `Token.ofLexeme` builds them; a token
in general may hold any value, and two tokens are equal (`==`) when all
four parts are.
-/

namespace LoxFront

/-- A token of a source. -/
structure Token where
  /-- Which rule of the grammar the lexeme satisfies. -/
  kind : TokenKind
  /-- The text that was read. -/
  lexeme : String
  /-- The value of a number or string; absent elsewhere, which is not the
  value `nil`. -/
  literal : Option Value
  /-- The line on which the lexeme ends, counted from 1. -/
  line : Nat
  deriving DecidableEq

/-- The value a lexeme of this kind denotes: a string's is what stands
between the quotes, a number's the double nearest to the decimal. -/
def TokenKind.literal? (kind : TokenKind) (lexeme : List Char) : Option Value :=
  match kind with
  | .string => some (.text (.ofList lexeme.tail.dropLast))
  | .number => some (.number (Decimal.ofNumeral lexeme).nearest)
  | _ => none

namespace Token

/-- The token of a kind with this lexeme, which ends on this line. -/
def ofLexeme (kind : TokenKind) (lexeme : List Char) (line : Nat) : Token where
  kind := kind
  lexeme := .ofList lexeme
  literal := kind.literal? lexeme
  line := line

/-- The token at the end of every scan: it has no text. -/
def eof (line : Nat) : Token := ⟨.eof, "", none, line⟩

/-- How a token is shown: its kind, its lexeme and the value it has, with
a space before each but the first. The space before an empty lexeme
stays. -/
def display (t : Token) : String :=
  match t.literal with
  | some value => t.kind.name ++ " " ++ t.lexeme ++ " " ++ value.display
  | none => t.kind.name ++ " " ++ t.lexeme

/-- Tokens compare by all four parts, their values as values do. -/
def equal (s t : Token) : Bool :=
  s.kind == t.kind && s.lexeme == t.lexeme && Value.equalOption s.literal t.literal &&
    s.line == t.line

instance : BEq Token := ⟨equal⟩

end Token

end LoxFront
