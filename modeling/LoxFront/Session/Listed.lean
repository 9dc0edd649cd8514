import LoxFront.Session.Basic
import LoxFront.Session.TextLines
/-!
# Reading a listing

A listing shows of each token its kind, its lexeme and its value, and not
its line. Reading goes entry by entry: the name of the kind ends at the
first space, and decides where the rest of the entry ends. A string is
found by its quotes, because its text, newlines and all, stands in the
entry twice and may look like other entries; every other entry ends with
the line. The entry of the end token is the last one.

That this gets back what was listed is shown in
`LoxFront.Proofs.Session.Listing`.
-/

namespace LoxFront

/-- What a listing shows of a token. -/
structure Listed where
  kind : TokenKind
  lexeme : String
  literal : Option Value
  deriving DecidableEq

/-- A token without its line. -/
def Token.listed (t : Token) : Listed := ⟨t.kind, t.lexeme, t.literal⟩

namespace Listed

/-- The entry of a lexeme, which has the value it has in a scan. -/
def ofLexeme (kind : TokenKind) (lexeme : List Char) : Listed :=
  ⟨kind, .ofList lexeme, kind.literal? lexeme⟩

/-- Behind the name of its kind: an entry's lexeme, and what is left
behind the entry. The body of a string stands between its quotes, and
between a space and a newline again. -/
def readLexeme (kind : TokenKind) (text : List Char) : List Char × List Char :=
  if kind = .string then
    let (body, again) := cutAt '"' text.tail
    ('"' :: (body ++ ['"']), again.drop (body.length + 2))
  else
    let (line, rest) := cutAt '\n' text
    ((cutAt ' ' line).1, rest)

/-- **Reads an entry**, and gives what is left behind it. -/
def read (text : List Char) : Option (Listed × List Char) :=
  let (name, shown) := cutAt ' ' text
  (TokenKind.ofName? (.ofList name)).map fun kind =>
    let (lexeme, rest) := readLexeme kind shown
    (ofLexeme kind lexeme, rest)

/-! ## An entry takes at least a character -/

theorem length_readLexeme_le (kind : TokenKind) (text : List Char) :
    (readLexeme kind text).2.length ≤ text.length := by
  unfold readLexeme
  split
  · have hcut := length_cutAt_le '"' text.tail
    have htail : text.tail.length ≤ text.length := by simp
    rw [List.length_drop]
    omega
  · exact length_cutAt_le '\n' text

/-- What is left behind an entry is shorter than what it was read from. -/
theorem length_read_lt {text : List Char} {entry : Listed × List Char}
    (h : read text = some entry) : entry.2.length < text.length := by
  have hne : text ≠ [] := by
    rintro rfl
    cases h
  obtain ⟨kind, -, rfl⟩ := Option.map_eq_some_iff.1 h
  exact Nat.lt_of_le_of_lt (length_readLexeme_le kind _) (length_cutAt_lt ' ' hne)

end Listed

/-- **Reads a listing** up to the entry of the end token, and gives what
is left behind that. -/
def readListing (text : List Char) : Option (List Listed × List Char) :=
  match _h : Listed.read text with
  | none => none
  | some (entry, rest) =>
    if entry.kind = .eof then some ([entry], rest)
    else (readListing rest).map fun (more, left) => (entry :: more, left)
termination_by text.length
decreasing_by exact Listed.length_read_lt _h

/-- Reads bytes that are a listing and nothing else. -/
def decodeListing (bytes : Bytes) : Option (List Listed) :=
  match decode? bytes with
  | none => none
  | some text =>
    match readListing text.toList with
    | some (entries, []) => some entries
    | _ => none

end LoxFront
