import LoxFront.Token.Keyword
/-!
# Kinds of tokens

A token's kind says which rule of the lexical grammar its text satisfies;
most kinds are the rule of a single text (`TokenKind.spelling?`). The
operators of expressions are told by kind alone: ten kinds stand between
two operands and two before one, the minus sign in either place.
-/

namespace LoxFront

/-- The kind of a token. -/
inductive TokenKind where
  | leftParen
  | rightParen
  | leftBrace
  | rightBrace
  | comma
  | dot
  | minus
  | plus
  | semicolon
  | slash
  | star
  | bang
  | bangEqual
  | equal
  | equalEqual
  | greater
  | greaterEqual
  | less
  | lessEqual
  | identifier
  | string
  | number
  | keyword (k : Keyword)
  | eof
  deriving DecidableEq

/-- The name of a reserved word's kind. -/
def Keyword.name : Keyword → String
  | andWord => "And"
  | classWord => "Class"
  | elseWord => "Else"
  | falseWord => "False"
  | forWord => "For"
  | funWord => "Fun"
  | ifWord => "If"
  | nilWord => "Nil"
  | orWord => "Or"
  | printWord => "Print"
  | returnWord => "Return"
  | superWord => "Super"
  | thisWord => "This"
  | trueWord => "True"
  | varWord => "Var"
  | whileWord => "While"

namespace TokenKind

/-- The name under which listings show a kind. -/
def name : TokenKind → String
  | leftParen => "LeftParen"
  | rightParen => "RightParen"
  | leftBrace => "LeftBrace"
  | rightBrace => "RightBrace"
  | comma => "Comma"
  | dot => "Dot"
  | minus => "Minus"
  | plus => "Plus"
  | semicolon => "Semicolon"
  | slash => "Slash"
  | star => "Star"
  | bang => "Bang"
  | bangEqual => "BangEqual"
  | equal => "Equal"
  | equalEqual => "EqualEqual"
  | greater => "Greater"
  | greaterEqual => "GreaterEqual"
  | less => "Less"
  | lessEqual => "LessEqual"
  | identifier => "Identifier"
  | string => "String"
  | number => "Number"
  | keyword k => k.name
  | eof => "Eof"

/-- All kinds. -/
def all : List TokenKind :=
  [leftParen, rightParen, leftBrace, rightBrace, comma, dot, minus, plus, semicolon, slash, star,
    bang, bangEqual, equal, equalEqual, greater, greaterEqual, less, lessEqual, identifier, string,
    number] ++ Keyword.all.map keyword ++ [eof]

/-- The kind with this name, if there is one. -/
def ofName? (name : String) : Option TokenKind :=
  all.find? (·.name == name)

/-- The one text that tokens of this kind have, for the kinds with only
one. The end of a source has none. -/
def spelling? : TokenKind → Option String
  | leftParen => "("
  | rightParen => ")"
  | leftBrace => "\x7b"
  | rightBrace => "\x7d"
  | comma => ","
  | dot => "."
  | minus => "-"
  | plus => "+"
  | semicolon => ";"
  | slash => "/"
  | star => "*"
  | bang => "!"
  | bangEqual => "!="
  | equal => "="
  | equalEqual => "=="
  | greater => ">"
  | greaterEqual => ">="
  | less => "<"
  | lessEqual => "<="
  | keyword k => k.spelling
  | identifier | string | number | eof => none

/-- Whether tokens of this kind stand between two operands. -/
def isBinaryOperator : TokenKind → Bool
  | bangEqual | equalEqual | greater | greaterEqual | less | lessEqual
  | minus | plus | slash | star => true
  | _ => false

/-- Whether tokens of this kind stand before one operand. -/
def isUnaryOperator : TokenKind → Bool
  | bang | minus => true
  | _ => false

/-- A kind is found again by its name, so no two kinds share one. -/
@[simp] theorem ofName?_name (kind : TokenKind) : ofName? kind.name = some kind := by
  cases kind with
  | keyword k => cases k <;> decide
  | _ => decide

end TokenKind

end LoxFront
