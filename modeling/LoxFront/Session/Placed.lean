import LoxFront.Session.Basic
/-!
# Entries by their places

The place of a token or an error is where its segment starts, as the number
of characters before it. By places the log of a run can be told from its
tokens and its errors apart from each other: a trace of each token, a
warning of each error that a writer has no room for, and both merged.
-/

namespace LoxFront

/-- The events of segments with their places, where the first segment
starts at this place and on this line. -/
def placedEvents (place line : Nat) : List Segment → List (Nat × ScanEvent)
  | [] => []
  | s :: rest =>
    ((s.event? (line + s.newlines)).map fun event => (place, event)).toList ++
      placedEvents (place + s.text.length) (line + s.newlines) rest

/-- What is picked of events, the tokens or the errors, with its places. -/
def placedOf {α : Type} (pick : ScanEvent → Option α) (es : List (Nat × ScanEvent)) :
    List (Nat × α) :=
  es.filterMap fun p => (pick p.2).map fun a => (p.1, a)

/-- **An event stands at this place of a source**: a token with its lexeme,
a character with itself, an open string with all that is left. -/
def ScanEvent.StandsAt (source : List Char) (place : Nat) : ScanEvent → Prop
  | token t => t.lexeme.toList <+: source.drop place
  | error (.unexpectedCharacter _ c) => [c] <+: source.drop place
  | error (.unterminatedString _) => ∃ body, '"' ∉ body ∧ source.drop place = '"' :: body

/-- **The errors a writer has no room for.** With this room, and this much
reported before, a diagnostic is written in full if all that is reported up
to its own end is. -/
def unwritten (room : Room) (before : Bytes) : List (Nat × ScanError) → List (Nat × ScanError)
  | [] => []
  | p :: rest =>
    let reported := before ++ encode (diagnostic p.2.line p.2.message)
    if (room.deliver reported).complete then unwritten room reported rest
    else p :: unwritten room reported rest

/-- The traces of tokens. -/
def traces (tokens : List (Nat × Token)) : List (Nat × LogEntry) :=
  tokens.map fun p => (p.1, .scanned p.2)

/-- The warnings of errors. -/
def warnings (errors : List (Nat × ScanError)) : List (Nat × LogEntry) :=
  errors.map fun p => (p.1, .unwritten .sinkFull)

/-- **The entries of tokens and errors, merged by their places.** -/
def mergedLog (tokens : List (Nat × Token)) (unwritten : List (Nat × ScanError)) : List LogEntry :=
  ((traces tokens).merge (warnings unwritten) fun a b => decide (a.1 ≤ b.1)).map Prod.snd

end LoxFront
