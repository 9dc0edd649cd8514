import LoxFront.Lexical.Scan
/-!
# Line endings

A line may end in a carriage return and a newline, and a carriage return
is a blank, so of such a pair the newline alone counts. `withLineFeeds`
drops the other from every pair in one pass, so that of several carriage
returns before a newline all but the last stay.
-/

namespace LoxFront

/-- A text with the carriage return dropped that stands right before a
newline. -/
def withLineFeeds : List Char → List Char
  | '\r' :: '\n' :: rest => '\n' :: withLineFeeds rest
  | c :: rest => c :: withLineFeeds rest
  | [] => []

/-- A token whose text and value have their line endings changed in this
way. Only a string's have any. -/
def Token.withLineFeeds (t : Token) : Token where
  kind := t.kind
  lexeme := .ofList (LoxFront.withLineFeeds t.lexeme.toList)
  literal := t.literal.map fun
    | .text s => .text (.ofList (LoxFront.withLineFeeds s.toList))
    | value => value
  line := t.line

end LoxFront
