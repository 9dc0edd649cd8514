import LoxFront.Lexical.Segment
import LoxFront.Token.Basic
/-!
# Scans

A scan reads a source segment by segment. Segments of tokens become
tokens, faults become errors, and both are kept in the order in which
their texts end; a fault ends nothing, and the scan goes on behind it.
The line is counted along: an event stands on the line on which its text
ends, so a string that spans lines on the line of its closing quote, and
an open string on the last line there is.
-/

namespace LoxFront

/-- A fault of a source, with the line it is reported on. -/
inductive ScanError where
  /-- A string is not closed before the source ends. -/
  | unterminatedString (line : Nat)
  /-- A character outside the alphabet stands where a token could. -/
  | unexpectedCharacter (line : Nat) (character : Char)
  deriving DecidableEq

namespace ScanError

/-- The line an error is reported on. -/
def line : ScanError → Nat
  | unterminatedString line => line
  | unexpectedCharacter line _ => line

/-- The wording of an error. It does not name the character. -/
def message : ScanError → String
  | unterminatedString _ => "Unterminated string."
  | unexpectedCharacter _ _ => "Unexpected character"

end ScanError

/-- What a scan comes upon: a token or an error. -/
inductive ScanEvent where
  | token (t : Token)
  | error (e : ScanError)
  deriving DecidableEq

namespace ScanEvent

/-- The token of an event that is one. -/
def token? : ScanEvent → Option Token
  | token t => some t
  | error _ => none

/-- The error of an event that is one. -/
def error? : ScanEvent → Option ScanError
  | token _ => none
  | error e => some e

end ScanEvent

/-- What a scan makes of a segment that ends on this line. Blanks,
newlines and comments are no events. -/
def Segment.event? (line : Nat) : Segment → Option ScanEvent
  | matched (.token kind) text => some (.token (.ofLexeme kind text line))
  | matched _ _ => none
  | openString _ => some (.error (.unterminatedString line))
  | stray c => some (.error (.unexpectedCharacter line c))

/-- The events of segments of which the first starts on this line. -/
def events (line : Nat) : List Segment → List ScanEvent
  | [] => []
  | s :: rest => (s.event? (line + s.newlines)).toList ++ events (line + s.newlines) rest

/-- The line on which segments end of which the first starts on this
line. -/
def lastLine (line : Nat) : List Segment → Nat
  | [] => line
  | s :: rest => lastLine (line + s.newlines) rest

/-- The outcome of a scan. -/
structure Scan where
  /-- Tokens and errors in the order of the source. -/
  events : List ScanEvent
  /-- The line on which the source ends. -/
  lastLine : Nat
  deriving DecidableEq

namespace Scan

/-- The tokens that were read, without the one at the end. -/
def lexed (s : Scan) : List Token := s.events.filterMap ScanEvent.token?

/-- **The tokens of a scan**: those that were read, and the one at the
end, which every scan has. -/
def tokens (s : Scan) : List Token := s.lexed ++ [.eof s.lastLine]

/-- The errors of a scan in order. -/
def errors (s : Scan) : List ScanError := s.events.filterMap ScanEvent.error?

end Scan

/-- The scan of a list of characters, its first line being line 1. -/
def scanChars (source : List Char) : Scan where
  events := events 1 (segments source)
  lastLine := lastLine 1 (segments source)

/-- **The scan of a source.** -/
def scan (source : String) : Scan := scanChars source.toList

/-! ## Lines are counted by newlines -/

/-- Lines end where newlines are: over segments the line grows by the
newlines in them. -/
theorem lastLine_eq (line : Nat) (segs : List Segment) :
    lastLine line segs = line + (segs.flatMap Segment.text).count '\n' := by
  induction segs generalizing line with
  | nil => rfl
  | cons s rest ih =>
    rw [lastLine, ih, List.flatMap_cons, List.count_append, Segment.newlines, Nat.add_assoc]

/-- A scan ends on line 1 plus the newlines of its source. -/
theorem lastLine_scanChars (source : List Char) :
    (scanChars source).lastLine = 1 + source.count '\n' := by
  rw [scanChars, lastLine_eq, flatMap_text_segments]

/-- The events of two runs of segments, one behind the other, are those of
the first and those of the second from the line the first ends on. -/
theorem events_append (line : Nat) (before after : List Segment) :
    events line (before ++ after) = events line before ++ events (lastLine line before) after := by
  induction before generalizing line with
  | nil => rfl
  | cons s rest ih => simp [events, lastLine, ih]

end LoxFront
