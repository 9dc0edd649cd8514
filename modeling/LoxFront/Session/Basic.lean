import LoxFront.Lexical.Scan
import LoxFront.Session.Log
import LoxFront.Session.Room
/-!
# Sessions

A session runs texts: it scans them, reports each error as a diagnostic
and lists the tokens. It keeps two things from one run to the next:
whether there were errors, and the room its diagnostics writer has left.
All else a run does is in its outcome, the bytes written, the log, and the
failure if there was one. The listing is written when the scan is over, so
an output writer that fails costs no diagnostics.
-/

namespace LoxFront

/-- What a session remembers. -/
structure Session where
  /-- Whether an error was reported. -/
  hadError : Bool
  /-- The room left for diagnostics. -/
  room : Room
  deriving DecidableEq

/-- What was done: the bytes written, the log in order, and the failure,
if any, that ended it. -/
@[ext]
structure Outcome where
  output : Bytes
  diagnostics : Bytes
  log : List LogEntry
  failure : Option Failure
  deriving DecidableEq

namespace Outcome

/-- Nothing was done. -/
def nothing : Outcome := ⟨[], [], [], .none⟩

/-- Bytes of output were written. -/
def ofOutput (output : Bytes) : Outcome := ⟨output, [], [], .none⟩

/-- An entry was logged. -/
def ofLog (entry : LogEntry) : Outcome := ⟨[], [], [entry], .none⟩

/-- Something failed. -/
def ofFailure (failure : Failure) : Outcome := ⟨[], [], [], some failure⟩

/-- One outcome and then another. The first failure stands. -/
def append (first second : Outcome) : Outcome where
  output := first.output ++ second.output
  diagnostics := first.diagnostics ++ second.diagnostics
  log := first.log ++ second.log
  failure := first.failure.or second.failure

instance : Append Outcome := ⟨append⟩

@[simp] theorem output_append (a b : Outcome) : (a ++ b).output = a.output ++ b.output := rfl

@[simp] theorem diagnostics_append (a b : Outcome) :
    (a ++ b).diagnostics = a.diagnostics ++ b.diagnostics := rfl

@[simp] theorem log_append (a b : Outcome) : (a ++ b).log = a.log ++ b.log := rfl

@[simp] theorem failure_append (a b : Outcome) : (a ++ b).failure = a.failure.or b.failure := rfl

@[simp] theorem nothing_append (a : Outcome) : nothing ++ a = a :=
  Outcome.ext rfl rfl rfl rfl

@[simp] theorem append_nothing (a : Outcome) : a ++ nothing = a :=
  Outcome.ext (List.append_nil _) (List.append_nil _) (List.append_nil _) Option.or_none

theorem append_assoc (a b c : Outcome) : a ++ b ++ c = a ++ (b ++ c) :=
  Outcome.ext (List.append_assoc ..) (List.append_assoc ..) (List.append_assoc ..)
    (Option.or_assoc ..)

end Outcome

/-- The text of a diagnostic. -/
def diagnostic (line : Nat) (message : String) : String := s!"[line {line}] Error: {message}\n"

/-- A listing of tokens, each shown on a line of its own. A string that
spans lines is shown as it is. -/
def listing (tokens : List Token) : String :=
  String.join (tokens.map fun t => t.display ++ "\n")

/-- The bytes of the listing of a source's tokens. -/
def Scan.listingBytes (s : Scan) : Bytes := encode (listing s.tokens)

/-- The summary of a scan for the log. -/
def Scan.summary (s : Scan) : LogEntry := .summary s.lexed.length s.lastLine s.errors.length

namespace Session

/-- A session that had no errors and whose diagnostics all find room. -/
def fresh : Session := ⟨false, .unlimited⟩

/-- Reports an error: the diagnostic is written as far as there is room,
which the log notes if it is not enough, and the session remembers the
error in any case. -/
def report (line : Nat) (message : String) (s : Session) : Outcome × Session :=
  let sent := s.room.deliver (encode (diagnostic line message))
  ({ Outcome.nothing with
      diagnostics := sent.accepted
      log := if sent.complete then [] else [.unwritten .sinkFull] },
    ⟨true, sent.room⟩)

/-- Takes note of an event of a scan: a token is logged, an error
reported. -/
def observe (s : Session) : ScanEvent → Outcome × Session
  | .token t => (.ofLog (.scanned t), s)
  | .error e => s.report e.line e.message

/-- Takes note of events in order. -/
def observeAll (s : Session) : List ScanEvent → Outcome × Session
  | [] => (.nothing, s)
  | event :: rest =>
    let (first, next) := s.observe event
    let (others, last) := next.observeAll rest
    (first ++ others, last)

/-- Events can be taken note of in parts: the outcomes add up, and the
session goes from one part to the next. -/
theorem observeAll_append (s : Session) (first second : List ScanEvent) :
    s.observeAll (first ++ second) =
      ((s.observeAll first).1 ++ ((s.observeAll first).2.observeAll second).1,
        ((s.observeAll first).2.observeAll second).2) := by
  induction first generalizing s with
  | nil => simp [observeAll]
  | cons event rest ih => simp [observeAll, ih, Outcome.append_assoc]

/-- Writes bytes to an output writer. -/
def write (bytes : Bytes) (out : Room) : Outcome :=
  let sent := out.deliver bytes
  { Outcome.ofOutput sent.accepted with
    failure := if sent.complete then .none else some .sinkFull }

/-- **Runs a source**: the events of its scan in order, then the summary
of the scan, then the listing of its tokens. -/
def run (s : Session) (source : String) (out : Room) : Outcome × Session :=
  let scanned := scan source
  let (seen, last) := s.observeAll scanned.events
  (seen ++ .ofLog scanned.summary ++ write scanned.listingBytes out, last)

/-- **Runs a file** whose content is known, or why it has none. The
content is text before any of it is run, or nothing is. -/
def runFile (s : Session) (path : String) (content : Except Failure Bytes) (out : Room) :
    Outcome × Session :=
  let started := Outcome.ofLog (.running path)
  match content with
  | .error failure => (started ++ .ofFailure failure, s)
  | .ok bytes =>
    match decode? bytes with
    | .none => (started ++ .ofFailure .invalidText, s)
    | some source =>
      let (outcome, last) := s.run source out
      (started ++ outcome, last)

end Session

end LoxFront
