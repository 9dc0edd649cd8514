import LoxFront.Lexical.Scan
/-!
# The cursor

A scan under way stands between two segments. Its cursor holds what was
read, what is left, the line that was counted to, and the events that were
come upon; one step (`Cursor.next?`) reads one segment, and where nothing
is left there is no step.

The cursor does not search a segment for newlines in general. It counts in
two places only, at the end of a line and between the quotes of a string
(`Segment.counted`); no other segment has a newline to count, which
`LoxFront.Proofs.Lexical.Line` shows.
-/

namespace LoxFront

/-- The newlines that are counted when a segment is read: the one that is
a segment of its own, and those behind an opening quote. -/
def Segment.counted : Segment → Nat
  | matched .newline _ => 1
  | matched (.token .string) text => text.count '\n'
  | openString text => text.count '\n'
  | _ => 0

/-- A scan between two segments. -/
structure Cursor where
  /-- The characters read so far. -/
  read : List Char
  /-- The characters left. -/
  left : List Char
  /-- The line counted to. -/
  line : Nat
  /-- The tokens and errors come upon so far. -/
  found : List ScanEvent
  deriving DecidableEq

namespace Cursor

/-- The cursor before anything is read. -/
def start (source : List Char) : Cursor := ⟨[], source, 1, []⟩

/-- The cursor behind a segment: its event stands on the line counted to
there. -/
def pass (c : Cursor) (s : Segment) (after : List Char) : Cursor :=
  let line := c.line + s.counted
  ⟨c.read ++ s.text, after, line, c.found ++ (s.event? line).toList⟩

/-- **A step**: the next segment is read. -/
def next? (c : Cursor) : Option Cursor :=
  match c.left with
  | [] => none
  | d :: rest =>
    let cut := Segment.first d rest
    some (c.pass cut.1 cut.2)

/-- **The cursors a scan comes by**, from its start on. -/
inductive Reached (source : List Char) : Cursor → Prop
  | start : Reached source (start source)
  | next {c d : Cursor} : Reached source c → c.next? = some d → Reached source d

end Cursor

end LoxFront
