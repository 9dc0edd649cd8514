import LoxFront.Lexical.Cursor
import LoxFront.Session.Pieces
/-!
# A run step by step

A run does not scan first and take note of the events then. It goes over
its source once, and what it reads in a step it records in that step: a
token is kept for the listing and logged, an error is counted and reported.
So there are four records, the tokens, the entries of the log, the count of
errors and what became of their diagnostics, and when nothing is left the
summary is made from two of them. That they agree, and that a run is what
`Session.run` says, is shown in `LoxFront.Proofs.Session.Pass`.
-/

namespace LoxFront

/-- A run under way. -/
structure Pass where
  /-- Where it stands in the source. -/
  cursor : Cursor
  /-- The tokens kept for the listing. -/
  tokens : List Token
  /-- How many errors were counted. -/
  errors : Nat
  /-- What was written and logged. -/
  done : Outcome
  /-- The session the errors were reported to. -/
  session : Session

namespace Pass

/-- A run before anything is read. -/
def start (s : Session) (source : List Char) : Pass := ⟨.start source, [], 0, .nothing, s⟩

/-- Keeps a token and logs it. -/
def keep (p : Pass) (t : Token) : Pass :=
  { p with tokens := p.tokens ++ [t], done := p.done ++ .ofLog (.scanned t) }

/-- Counts an error and reports it. -/
def count (p : Pass) (e : ScanError) : Pass :=
  let sent := p.session.report e.line e.message
  { p with errors := p.errors + 1, done := p.done ++ sent.1, session := sent.2 }

/-- Records what a segment comes to. -/
def record (p : Pass) : Option ScanEvent → Pass
  | none => p
  | some (.token t) => p.keep t
  | some (.error e) => p.count e

/-- **A step**: the next segment is read and recorded. -/
def next? (p : Pass) : Option Pass :=
  match p.cursor.left with
  | [] => none
  | c :: rest =>
    let cut := Segment.first c rest
    let cursor := p.cursor.pass cut.1 cut.2
    some ({ p with cursor }.record (cut.1.event? cursor.line))

/-- **The states a run of a source comes by**, from its start on. -/
inductive Reached (s : Session) (source : List Char) : Pass → Prop
  | start : Reached s source (start s source)
  | next {p q : Pass} : Reached s source p → p.next? = some q → Reached s source q

/-- What a run does when nothing is left: it logs the summary and lists the
tokens with the one at the end. -/
def finish (p : Pass) (out : Room) : Outcome × Session :=
  (p.done ++ .ofLog (.summary p.tokens.length p.cursor.line p.errors) ++
    Session.writeTokens (p.tokens ++ [.eof p.cursor.line]) out, p.session)

end Pass

end LoxFront
