import LoxFront.Lexical.Scan
/-!
# Modes

A source can be read a character at a time, without cutting it into
segments, if it is known at each character whether it stands in code, in a
string or in a comment. A quote opens a string and closes it, two slashes
next to each other in code open a comment, and a newline ends that. Modes
are all it takes to say which errors a source has (`modeErrors`) and what
is left of it without its comments (`withoutComments`).
-/

namespace LoxFront

/-- Where a character of a source stands. -/
inductive Mode where
  | code
  | string
  | comment
  deriving DecidableEq

/-- The mode behind a character, which depends on what follows it where a
slash may open a comment: the first of its two slashes belongs to it. -/
def Mode.after (c : Char) (rest : List Char) : Mode → Mode
  | code =>
    if c = '"' then string
    else if c = '/' ∧ rest.head? = some '/' then comment
    else code
  | string => if c = '"' then code else string
  | comment => if c = '\n' then code else comment

/-- The line behind a character. -/
def lineAfter (line : Nat) (c : Char) : Nat := if c = '\n' then line + 1 else line

/-- **The errors of a source, character by character**: each one in code
that is outside the alphabet, and at the end the string that is open
there. -/
def modeErrors (mode : Mode) (line : Nat) : List Char → List ScanError
  | [] => if mode = .string then [.unterminatedString line] else []
  | c :: rest =>
    (if mode = .code ∧ inAlphabet c = false then [.unexpectedCharacter line c] else []) ++
      modeErrors (mode.after c rest) (lineAfter line c) rest

/-- **A source without its comments**: the characters in whose wake the
mode is not a comment's. The newline that ends a comment stays. -/
def withoutComments (mode : Mode) : List Char → List Char
  | [] => []
  | c :: rest =>
    if mode.after c rest = .comment then withoutComments .comment rest
    else c :: withoutComments (mode.after c rest) rest

end LoxFront
