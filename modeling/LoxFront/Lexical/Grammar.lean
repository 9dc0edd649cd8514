import LoxFront.Lexical.Segment
/-!
# The lexical grammar

The grammar is a set of texts for every rule, said without a scanner.
Where a source goes on with texts of several rules, or with several texts
of one, the longest counts (`Rule.Longest`), and where it goes on with
none, a fault takes a single character, or all that is left if that starts
with a quote. `Segmented` puts this together: it holds of a source and the
pieces it falls into.
-/

namespace LoxFront

/-- A run of digits, of at least one. -/
def IsDigits (text : List Char) : Prop := text ≠ [] ∧ ∀ c ∈ text, c.isDigit = true

/-- A letter or underscore, and behind it letters, underscores and digits. -/
def IsWord : List Char → Prop
  | [] => False
  | c :: rest => isWordStart c = true ∧ ∀ d ∈ rest, isWordPart d = true

/-- **The texts of a kind of token.** A word is an identifier unless it is
spelled like a keyword. -/
def TokenKind.Spells : TokenKind → List Char → Prop
  | .identifier, text => IsWord text ∧ ∀ k : Keyword, text ≠ k.spelling.toList
  | .string, text => ∃ body : List Char, '"' ∉ body ∧ text = '"' :: (body ++ ['"'])
  | .number, text => IsDigits text ∨
      ∃ whole fraction, IsDigits whole ∧ IsDigits fraction ∧ text = whole ++ '.' :: fraction
  | kind, text => ∃ s, kind.spelling? = some s ∧ text = s.toList

/-- **The texts of a rule.** -/
def Rule.Spells : Rule → List Char → Prop
  | .token kind, text => kind.Spells text
  | .blank, text => ∃ c, isBlank c = true ∧ text = [c]
  | .newline, text => text = ['\n']
  | .comment, text => ∃ body : List Char, '\n' ∉ body ∧ text = '/' :: '/' :: body

/-- A source starts with a text of a rule. -/
def Rule.Starts (rule : Rule) (text source : List Char) : Prop :=
  rule.Spells text ∧ text <+: source

/-- A source starts with a text of a rule, and with no longer text of any
rule. -/
def Rule.Longest (rule : Rule) (text source : List Char) : Prop :=
  rule.Starts text source ∧
    ∀ (other : Rule) (longer : List Char), other.Starts longer source → longer.length ≤ text.length

/-- No rule has a text the source starts with. -/
def NoRule (source : List Char) : Prop :=
  ∀ (rule : Rule) (text : List Char), ¬ rule.Starts text source

/-- **What a source falls into** under the grammar. -/
inductive Segmented : List Char → List Segment → Prop
  /-- Nothing is left. -/
  | nil : Segmented [] []
  /-- A longest text of a rule comes first. -/
  | matched {rule : Rule} {text rest : List Char} {segs : List Segment} :
      rule.Longest text (text ++ rest) → Segmented rest segs →
      Segmented (text ++ rest) (.matched rule text :: segs)
  /-- No rule applies, and a quote comes first. -/
  | openString {rest : List Char} :
      NoRule ('"' :: rest) → Segmented ('"' :: rest) [.openString ('"' :: rest)]
  /-- No rule applies, and another character comes first. -/
  | stray {c : Char} {rest : List Char} {segs : List Segment} :
      c ≠ '"' → NoRule (c :: rest) → Segmented rest segs →
      Segmented (c :: rest) (.stray c :: segs)

end LoxFront
