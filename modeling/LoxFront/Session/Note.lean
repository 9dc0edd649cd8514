import LoxFront.Session.History
/-!
# Notes

Besides its output a history makes known a list of notes, in order: entries
for the log, and errors for the diagnostics. They are read off the steps
and need no session, and the room of no writer changes them.

A diagnostics writer with room for so many bytes takes the first ones of
what is reported. A diagnostic that reaches past them leaves a warning in
the log, in the place where it was reported (`limitedLog`).
-/

namespace LoxFront

/-- Something a step makes known. -/
inductive Note where
  /-- An entry goes into the log. -/
  | logged (entry : LogEntry)
  /-- An error is reported. -/
  | reported (line : Nat) (message : String)
  deriving DecidableEq

namespace Note

/-- The bytes that go to the diagnostics writer. -/
def bytes : Note → Bytes
  | logged _ => []
  | reported line message => encode (diagnostic line message)

/-- What the log says of a note: of an error something only if its
diagnostic could not be written in full. -/
def entries (written : Bool) : Note → List LogEntry
  | logged entry => [entry]
  | reported _ _ => if written then [] else [.unwritten .sinkFull]

end Note

/-- All that is reported, one diagnostic behind the other. -/
def reportBytes (notes : List Note) : Bytes := notes.flatMap Note.bytes

/-- **The log beside a writer that takes so many bytes.** A diagnostic is
written in full if all that is reported up to its own last byte is among
them. -/
def limitedLog (limit : Nat) (notes : List Note) : List LogEntry :=
  (notes.mapIdx fun i note =>
    note.entries (decide ((reportBytes (notes.take (i + 1))).length ≤ limit))).flatten

/-! ## The notes of steps -/

/-- The note of what a scan comes upon. -/
def ScanEvent.note : ScanEvent → Note
  | token t => .logged (.scanned t)
  | error e => .reported e.line e.message

/-- The notes of a source that is run: its tokens and errors in order, and
the summary of its scan. -/
def sourceNotes (source : String) : List Note :=
  (scan source).events.map ScanEvent.note ++ [.logged (scan source).summary]

/-- The notes of lines at the prompt. The first that is no text ends them. -/
def lineNotes : List Bytes → List Note
  | [] => []
  | line :: rest =>
    match decode? line with
    | none => []
    | some text => sourceNotes (entry text) ++ lineNotes rest

/-- **The notes of a step.** -/
def Step.notes : Step → List Note
  | run source _ => sourceNotes source
  | runFile path content _ =>
    .logged (.running path) :: (content.toOption.bind decode?).elim [] sourceNotes
  | prompt input => lineNotes (inputLines input)
  | report line message => [.reported line message]

end LoxFront
