import LoxFront.Lexical.Alphabet
/-!
# Segments

A source is cut into segments, each read under one rule of the lexical
grammar: a token, a blank, a newline or a comment. Where no rule applies
the cut goes on behind a fault: a character outside the alphabet, or a
string without its closing quote, which takes all that is left.

The first character of what is left decides which rules can apply, and
`Segment.first` cuts off as much as they allow. Nothing is lost in a cut
(`Segment.text_first_append`) and each one takes at least a character, so
`segments` ends, and the texts of a source's segments, one behind the
other, are the source (`flatMap_text_segments`).
-/

namespace LoxFront

/-- A rule of the lexical grammar. -/
inductive Rule where
  /-- A token of this kind. -/
  | token (kind : TokenKind)
  /-- A character that separates tokens. -/
  | blank
  /-- The end of a line. -/
  | newline
  /-- Two slashes and what follows on their line. -/
  | comment
  deriving DecidableEq

/-- A piece of a source. -/
inductive Segment where
  /-- A text that satisfies a rule. -/
  | matched (rule : Rule) (text : List Char)
  /-- An opening quote that is never closed, and the rest of the source. -/
  | openString (text : List Char)
  /-- A character no rule can start with. -/
  | stray (c : Char)
  deriving DecidableEq

namespace Segment

/-- The characters of a segment. -/
def text : Segment → List Char
  | matched _ text => text
  | openString text => text
  | stray c => [c]

/-- How many lines end in a segment. -/
def newlines (s : Segment) : Nat := s.text.count '\n'

/-! ## The first segment, by what it starts with -/

/-- Behind an operator: an equals sign belongs to it. -/
def ofOperator (c : Char) (alone extended : TokenKind) : List Char → Segment × List Char
  | '=' :: rest => (matched (.token extended) [c, '='], rest)
  | rest => (matched (.token alone) [c], rest)

/-- Behind a slash: a second one makes it a comment, which ends before the
newline. -/
def ofSlash : List Char → Segment × List Char
  | '/' :: rest =>
    (matched .comment ('/' :: '/' :: rest.takeWhile (· != '\n')), rest.dropWhile (· != '\n'))
  | rest => (matched (.token .slash) ['/'], rest)

/-- Behind an opening quote: the string reaches to the next quote, over
the ends of lines too. -/
def ofQuote (rest : List Char) : Segment × List Char :=
  match rest.dropWhile (· != '"') with
  | [] => (openString ('"' :: rest), [])
  | _ :: after => (matched (.token .string) ('"' :: (rest.takeWhile (· != '"') ++ ['"'])), after)

/-- Behind the first digit of a number: its other digits, and a point if
a digit follows it. -/
def ofDigit (c : Char) (rest : List Char) : Segment × List Char :=
  let whole := c :: rest.takeWhile Char.isDigit
  match rest.dropWhile Char.isDigit with
  | '.' :: d :: after =>
    if d.isDigit then
      (matched (.token .number) (whole ++ '.' :: d :: after.takeWhile Char.isDigit),
        after.dropWhile Char.isDigit)
    else (matched (.token .number) whole, '.' :: d :: after)
  | after => (matched (.token .number) whole, after)

/-- The kind of a word: a keyword's if all of it is one. -/
def wordKind (word : List Char) : TokenKind :=
  match Keyword.ofSpelling? (.ofList word) with
  | some k => .keyword k
  | none => .identifier

/-- Behind the first letter of a word: all that continues it. -/
def ofLetter (c : Char) (rest : List Char) : Segment × List Char :=
  let word := c :: rest.takeWhile isWordPart
  (matched (.token (wordKind word)) word, rest.dropWhile isWordPart)

/-- **The first segment** of the source `c :: rest`, and what is left
behind it. -/
def first (c : Char) (rest : List Char) : Segment × List Char :=
  if let some kind := markKind? c then (matched (.token kind) [c], rest)
  else if let some (alone, extended) := operatorKinds? c then ofOperator c alone extended rest
  else if c = '/' then ofSlash rest
  else if c = '"' then ofQuote rest
  else if c = '\n' then (matched .newline [c], rest)
  else if isBlank c then (matched .blank [c], rest)
  else if c.isDigit then ofDigit c rest
  else if isWordStart c then ofLetter c rest
  else (stray c, rest)

/-! ## A cut loses nothing -/

theorem text_ofOperator_append (c : Char) (alone extended : TokenKind) (rest : List Char) :
    (ofOperator c alone extended rest).1.text ++ (ofOperator c alone extended rest).2 =
      c :: rest := by
  unfold ofOperator
  split <;> rfl

theorem text_ofSlash_append (rest : List Char) :
    (ofSlash rest).1.text ++ (ofSlash rest).2 = '/' :: rest := by
  unfold ofSlash
  split
  · simp [text, List.takeWhile_append_dropWhile]
  · rfl

/-- Dropping up to a quote leaves nothing or stops at one. -/
theorem dropWhile_bne_quote {rest after : List Char} {q : Char}
    (h : rest.dropWhile (· != '"') = q :: after) : q = '"' := by
  have hq := List.head?_dropWhile_not (· != '"') rest
  rw [h] at hq
  simpa using hq

theorem text_ofQuote_append (rest : List Char) :
    (ofQuote rest).1.text ++ (ofQuote rest).2 = '"' :: rest := by
  unfold ofQuote
  split
  · simp [text]
  · next q after h =>
    have hq := dropWhile_bne_quote h
    subst hq
    have split_rest := List.takeWhile_append_dropWhile (p := (· != '"')) (l := rest)
    rw [h] at split_rest
    simp [text, split_rest]

theorem text_ofDigit_append (c : Char) (rest : List Char) :
    (ofDigit c rest).1.text ++ (ofDigit c rest).2 = c :: rest := by
  have split_rest := List.takeWhile_append_dropWhile (p := Char.isDigit) (l := rest)
  unfold ofDigit
  split
  · next d after h =>
    rw [h] at split_rest
    split <;> simp [text, List.takeWhile_append_dropWhile, split_rest]
  · simp [text, split_rest]

theorem text_ofLetter_append (c : Char) (rest : List Char) :
    (ofLetter c rest).1.text ++ (ofLetter c rest).2 = c :: rest := by
  simp [ofLetter, text, List.takeWhile_append_dropWhile]

/-- **A cut loses nothing**: the segment and what is left are the source. -/
theorem text_first_append (c : Char) (rest : List Char) :
    (first c rest).1.text ++ (first c rest).2 = c :: rest := by
  unfold first
  split
  · rfl
  split
  · exact text_ofOperator_append ..
  split
  · next slash => subst slash; exact text_ofSlash_append rest
  split
  · next quote => subst quote; exact text_ofQuote_append rest
  split
  · rfl
  split
  · rfl
  split
  · exact text_ofDigit_append c rest
  split
  · exact text_ofLetter_append c rest
  · rfl

/-- A segment has at least one character. -/
theorem text_first_ne_nil (c : Char) (rest : List Char) : (first c rest).1.text ≠ [] := by
  unfold first ofOperator ofSlash ofQuote ofDigit ofLetter
  repeat' split
  all_goals simp [text]

/-- What is left behind a segment is shorter than the source. -/
theorem length_first_lt (c : Char) (rest : List Char) :
    (first c rest).2.length < (c :: rest).length := by
  have cut := congrArg List.length (text_first_append c rest)
  have pos := List.length_pos_iff.2 (text_first_ne_nil c rest)
  rw [List.length_append] at cut
  omega

end Segment

/-! ## All segments -/

/-- The segments of a source, in order. -/
def segments : List Char → List Segment
  | [] => []
  | c :: rest =>
    let cut := Segment.first c rest
    cut.1 :: segments cut.2
termination_by source => source.length
decreasing_by exact Segment.length_first_lt c rest

@[simp] theorem segments_nil : segments [] = [] := by rw [segments]

theorem segments_cons (c : Char) (rest : List Char) :
    segments (c :: rest) = (Segment.first c rest).1 :: segments (Segment.first c rest).2 := by
  rw [segments]

/-- **The segments are the source**, cut into pieces. -/
theorem flatMap_text_segments (source : List Char) :
    (segments source).flatMap Segment.text = source := by
  fun_induction segments source with
  | case1 => rfl
  | case2 c rest cut ih => rw [List.flatMap_cons, ih, Segment.text_first_append]

end LoxFront
