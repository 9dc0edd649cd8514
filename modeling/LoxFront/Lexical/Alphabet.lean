import LoxFront.Token.Kind
/-!
# The alphabet

The characters a source is made of, by what they can start or continue:
digits, letters, blanks, marks that are tokens on their own, and operators
that an equals sign may extend. All classes are of ASCII characters alone.
Every other character, U+0000 included, can stand in a string or a comment
only.
-/

namespace LoxFront

/-- A character that separates tokens and leaves the line as it is. -/
def isBlank (c : Char) : Bool := c == ' ' || c == '\t' || c == '\r'

/-- A character that can start a word. -/
def isWordStart (c : Char) : Bool := c.isAlpha || c == '_'

/-- A character that can continue a word. -/
def isWordPart (c : Char) : Bool := isWordStart c || c.isDigit

/-- The kind of a mark, a token of one character that nothing extends. -/
def markKind? : Char → Option TokenKind
  | '(' => some .leftParen
  | ')' => some .rightParen
  | '{' => some .leftBrace
  | '}' => some .rightBrace
  | ',' => some .comma
  | '.' => some .dot
  | '-' => some .minus
  | '+' => some .plus
  | ';' => some .semicolon
  | '*' => some .star
  | _ => none

/-- The kinds of an operator that an equals sign extends: alone, and with
the sign. -/
def operatorKinds? : Char → Option (TokenKind × TokenKind)
  | '!' => some (.bang, .bangEqual)
  | '=' => some (.equal, .equalEqual)
  | '<' => some (.less, .lessEqual)
  | '>' => some (.greater, .greaterEqual)
  | _ => none

/-- The characters a source may hold outside its strings and comments. -/
def inAlphabet (c : Char) : Bool :=
  isWordPart c || isBlank c || c == '\n' || "()\x7b\x7d,.-+;*!=<>/\"".toList.contains c

end LoxFront
