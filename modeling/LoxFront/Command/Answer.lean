import LoxFront.Command.Folder
import LoxFront.Command.Request
import LoxFront.Session.Prompt
/-!
# Answers

What the command line answers to its arguments, the files it finds and its
standard input: an exit code and what it writes on either stream. Help and
usage read nothing. A script ends in the code for bad data if it had
errors, and whatever fails in the code for failure, with the reason on the
stream of errors.
-/

namespace LoxFront

/-- An exit code and the bytes written on the two streams. -/
structure Answer where
  code : Nat
  stdout : Bytes
  stderr : Bytes
  deriving DecidableEq

namespace Answer

/-- The exit code of a failure. -/
def failureCode : Nat := 1

/-- The exit code of arguments that make no sense. -/
def usageCode : Nat := 64

/-- The exit code of a script that had errors. -/
def dataCode : Nat := 65

/-- The line shown for arguments that make no sense. -/
def usageText : String := "Usage: rlox [script]\n"

/-- The text of the help. -/
def helpText : String :=
  "Usage: rlox [SCRIPT]\n\n" ++
  "Arguments:\n  [SCRIPT]  script to run; starts a prompt when omitted\n\n" ++
  "Options:\n  -h, --help  Print help\n"

/-- The line on the stream of errors for a failure. -/
def failureText (failure : Failure) : String := s!"Error: {failure.message}\n"

/-- The answer of a session that did so much: this code, unless something
failed. -/
def ofOutcome (outcome : Outcome) (code : Nat) : Answer :=
  match outcome.failure with
  | none => ⟨code, outcome.output, outcome.diagnostics⟩
  | some failure =>
    ⟨failureCode, outcome.output, outcome.diagnostics ++ encode (failureText failure)⟩

/-- The answer of a script with this content, run on a fresh session. -/
def ofScript (path : String) (content : Except Failure Bytes) : Answer :=
  let (outcome, last) := Session.fresh.runFile path content .unlimited
  ofOutcome outcome (if last.hadError then dataCode else 0)

/-- The answer of a prompt on this input, on a fresh session. -/
def ofPrompt (input : Bytes) : Answer := ofOutcome (Session.fresh.prompt input).1 0

/-- **The answer to arguments**, in a folder and with a standard input. -/
def ofArguments (arguments : List String) (folder : Folder) (stdin : Bytes) : Answer :=
  match Request.ofArguments arguments with
  | .help => ⟨0, encode helpText, []⟩
  | .usage => ⟨usageCode, encode usageText, []⟩
  | .script path => ofScript path (folder.read path)
  | .prompt => ofPrompt stdin

end Answer

end LoxFront
