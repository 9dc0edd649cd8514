/-!
# Keywords

The sixteen words that are no identifiers. A word is a keyword when all of
it is the spelling of one, in this case of letters.
-/

namespace LoxFront

/-- A reserved word. -/
inductive Keyword where
  | andWord
  | classWord
  | elseWord
  | falseWord
  | forWord
  | funWord
  | ifWord
  | nilWord
  | orWord
  | printWord
  | returnWord
  | superWord
  | thisWord
  | trueWord
  | varWord
  | whileWord
  deriving DecidableEq

namespace Keyword

/-- The reserved words in alphabetical order. -/
def all : List Keyword :=
  [andWord, classWord, elseWord, falseWord, forWord, funWord, ifWord, nilWord, orWord, printWord,
    returnWord, superWord, thisWord, trueWord, varWord, whileWord]

/-- How a reserved word is written in a source. -/
def spelling : Keyword → String
  | andWord => "and"
  | classWord => "class"
  | elseWord => "else"
  | falseWord => "false"
  | forWord => "for"
  | funWord => "fun"
  | ifWord => "if"
  | nilWord => "nil"
  | orWord => "or"
  | printWord => "print"
  | returnWord => "return"
  | superWord => "super"
  | thisWord => "this"
  | trueWord => "true"
  | varWord => "var"
  | whileWord => "while"

/-- The reserved word that is written so, if there is one. -/
def ofSpelling? (text : String) : Option Keyword :=
  all.find? (·.spelling == text)

/-- A reserved word is found by its spelling. -/
@[simp] theorem ofSpelling?_spelling (k : Keyword) : ofSpelling? k.spelling = some k := by
  cases k <;> decide

/-- **A text is looked up exactly**: a keyword is found if and only if the
whole text is its spelling. -/
theorem ofSpelling?_eq_some_iff {text : String} {k : Keyword} :
    ofSpelling? text = some k ↔ text = k.spelling := by
  constructor
  · intro h
    have found := List.find?_some (show all.find? (·.spelling == text) = some k from h)
    exact (eq_of_beq found).symm
  · rintro rfl
    exact ofSpelling?_spelling k

end Keyword

end LoxFront
