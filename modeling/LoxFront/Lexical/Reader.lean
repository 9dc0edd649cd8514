import LoxFront.Lexical.Scan
/-!
# The reader

A scan by places. The reader keeps the place where the lexeme starts and the
place it has come to, and looks characters up in the source. It takes one
character in a step and goes through five loops, one for each kind of lexeme
that can be long; `Reader.phase` says in which it is.

Past the end it sees U+0000 and so cannot tell the end from such a
character by looking. Nothing here keeps it within the source: to take a
character where there is none, to cut out a slice that is not there and to
read a number from another text is a fault (`Fault`), and that there is none
on any source is shown in `LoxFront.Proofs.Lexical.Reader`.
-/

namespace LoxFront

/-- Where the reader is: between two lexemes, or in the loop that reads on in
one. -/
inductive Phase where
  | between
  | comment
  | string
  /-- In the digits before the point. -/
  | whole
  /-- In the digits behind the point. -/
  | fraction
  | word
  deriving DecidableEq

/-- What a reader cannot go on from. -/
inductive Fault where
  /-- A character was taken where the source has none. -/
  | place
  /-- A slice ends before it starts, or past the end of the source. -/
  | slice
  /-- A text that is no numeral was read as a number. -/
  | numeral
  deriving DecidableEq

/-- A scan under way. -/
structure Reader where
  phase : Phase
  /-- The place of the first character of the lexeme. -/
  start : Nat
  /-- The place of the next character. -/
  current : Nat
  /-- The line counted to. -/
  line : Nat
  tokens : List Token
  errors : List ScanError
  deriving DecidableEq

/-- A run of digits, and behind it nothing or a point and a run of digits. -/
def isNumeral (text : List Char) : Bool :=
  let fraction := text.dropWhile Char.isDigit
  text.takeWhile Char.isDigit != [] &&
    (fraction == [] ||
      fraction.head? == some '.' && fraction.tail != [] && fraction.tail.all Char.isDigit)

/-- The characters from one place up to another. -/
def slice (source : List Char) (first last : Nat) : Except Fault (List Char) :=
  if first ≤ last ∧ last ≤ source.length then .ok ((source.take last).drop first)
  else .error .slice

namespace Reader

/-- The reader before anything is read. -/
def initial : Reader := ⟨.between, 0, 0, 1, [], []⟩

/-! ## Characters -/

section Characters

variable (source : List Char) (r : Reader)

/-- Whether all characters are read. -/
def atEnd : Bool := decide (source.length ≤ r.current)

/-- The next character, U+0000 if there is none. -/
def peek : Char := source[r.current]?.getD '\x00'

/-- The character behind the next, U+0000 if there is none. -/
def peekNext : Char := source[r.current + 1]?.getD '\x00'

/-- The next character is taken, without a look whether there is one. -/
def advance : Except Fault (Char × Reader) :=
  match source[r.current]? with
  | some c => .ok (c, { r with current := r.current + 1 })
  | none => .error .place

/-- The next character is skipped. -/
def skip : Except Fault Reader := return (← r.advance source).2

/-- The next character is taken if it is this one. -/
def matchNext (target : Char) : Bool × Reader :=
  if !r.atEnd source && source[r.current]? == some target then
    (true, { r with current := r.current + 1 })
  else (false, r)

/-- The characters of the lexeme so far. -/
def lexeme : Except Fault (List Char) := slice source r.start r.current

end Characters

/-! ## Ends of lexemes -/

section Ends

variable (source : List Char) (r : Reader)

/-- The lexeme is a token. -/
def addToken (kind : TokenKind) (literal : Option Value) : Except Fault Reader := do
  let text ← r.lexeme source
  return { r with
    phase := .between, tokens := r.tokens ++ [⟨kind, .ofList text, literal, r.line⟩] }

/-- The lexeme is a fault of the source. -/
def report (error : ScanError) : Reader :=
  { r with phase := .between, errors := r.errors ++ [error] }

/-- The lexeme is a number. -/
def addNumber : Except Fault Reader := do
  let text ← r.lexeme source
  if isNumeral text then
    r.addToken source .number (some (.number (Decimal.ofNumeral text).nearest))
  else .error .numeral

/-- The lexeme is a word. -/
def addWord : Except Fault Reader := do
  let text ← r.lexeme source
  r.addToken source (Segment.wordKind text) none

/-- The lexeme is a string once its closing quote is taken. Its value is what
stands between the quotes. -/
def addString : Except Fault Reader := do
  let r ← r.skip source
  let text ← slice source (r.start + 1) (r.current - 1)
  r.addToken source .string (some (.text (.ofList text)))

end Ends

/-! ## Steps -/

section Steps

variable (source : List Char) (r : Reader)

/-- Behind its first character a lexeme ends, or the loop for it starts. -/
def enter (c : Char) : Except Fault Reader :=
  if let some kind := markKind? c then r.addToken source kind none
  else if let some (alone, extended) := operatorKinds? c then
    match r.matchNext source '=' with
    | (true, r) => r.addToken source extended none
    | (false, r) => r.addToken source alone none
  else if c = '/' then
    match r.matchNext source '/' with
    | (true, r) => return { r with phase := .comment }
    | (false, r) => r.addToken source .slash none
  else if c = '"' then return { r with phase := .string }
  else if c = '\n' then return { r with line := r.line + 1 }
  else if isBlank c then return r
  else if c.isDigit then return { r with phase := .whole }
  else if isWordStart c then return { r with phase := .word }
  else return r.report (.unexpectedCharacter r.line c)

/-- A lexeme starts where the last one ended. -/
def begin : Except Fault Reader := do
  let (c, r) ← { r with start := r.current }.advance source
  r.enter source c

/-- A comment goes on up to a newline or the end. -/
def inComment : Except Fault Reader :=
  if r.peek source != '\n' && !r.atEnd source then r.skip source
  else return { r with phase := .between }

/-- A string goes on up to a quote, and is open if the end comes first. -/
def inString : Except Fault Reader :=
  if r.peek source != '"' && !r.atEnd source then
    if r.peek source = '\n' then { r with line := r.line + 1 }.skip source else r.skip source
  else if r.atEnd source then return r.report (.unterminatedString r.line)
  else r.addString source

/-- A number goes on over digits, and over a point if a digit is behind
it. -/
def inWhole : Except Fault Reader :=
  if (r.peek source).isDigit then r.skip source
  else if r.peek source = '.' ∧ (r.peekNext source).isDigit then
    { r with phase := .fraction }.skip source
  else r.addNumber source

/-- Behind its point it goes on over digits. -/
def inFraction : Except Fault Reader :=
  if (r.peek source).isDigit then r.skip source else r.addNumber source

/-- A word goes on over letters, underscores and digits. -/
def inWord : Except Fault Reader :=
  if isWordPart (r.peek source) then r.skip source else r.addWord source

/-- **A step of the reader.** There is none between two lexemes if all
characters are read. -/
def step : Except Fault (Option Reader) :=
  match r.phase with
  | .between => if r.atEnd source then return none else some <$> r.begin source
  | .comment => some <$> r.inComment source
  | .string => some <$> r.inString source
  | .whole => some <$> r.inWhole source
  | .fraction => some <$> r.inFraction source
  | .word => some <$> r.inWord source

end Steps

/-- From a state that no reader comes by there may be a fault. -/
example : step ['1'] ⟨.whole, 2, 1, 1, [], []⟩ = .error .slice ∧
    step ['_'] ⟨.whole, 0, 1, 1, [], []⟩ = .error .numeral ∧ begin [] initial = .error .place :=
  ⟨rfl, rfl, rfl⟩

/-! ## Runs -/

/-- **The states a reader comes by.** -/
inductive Reached (source : List Char) : Reader → Prop
  | initial : Reached source initial
  | step {r s : Reader} : Reached source r → step source r = .ok (some s) → Reached source s

/-- The states in the reading of one lexeme, which starts in a state between
two. -/
inductive Within (source : List Char) (r : Reader) : Reader → Prop
  | first {s : Reader} :
      r.phase = .between → step source r = .ok (some s) → Within source r s
  | next {s t : Reader} :
      Within source r s → s.phase ≠ .between → step source s = .ok (some t) → Within source r t

/-- **One lexeme is read**, from a state between two to the next. -/
def Call (source : List Char) (r s : Reader) : Prop := Within source r s ∧ s.phase = .between

/-- The states between two lexemes, by how many were read. -/
inductive Calls (source : List Char) : Nat → Reader → Prop
  | zero : Calls source 0 initial
  | succ {n : Nat} {r s : Reader} : Calls source n r → Call source r s → Calls source (n + 1) s

/-- **What the reading of a lexeme adds**: one token, one error, or
neither. -/
def AddsOne (r s : Reader) : Prop :=
  (∃ t, s.tokens = r.tokens ++ [t] ∧ s.errors = r.errors) ∨
  (∃ e, s.tokens = r.tokens ∧ s.errors = r.errors ++ [e]) ∨
  (s.tokens = r.tokens ∧ s.errors = r.errors)

end Reader

end LoxFront
