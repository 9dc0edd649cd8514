import LoxFront.Token.Basic
/-!
# Failures and the log

Why a step of a session can fail, and what a session notes while it works.
Log entries are kept as what they say; their level and wording are
functions of that.
-/

namespace LoxFront

/-- Why something could not be read or written. -/
inductive Failure where
  /-- There is no such file. -/
  | missing
  /-- A directory was to be read as a file. -/
  | directory
  /-- A path goes on behind a file. -/
  | beyondFile
  /-- A path, or a name in it, is longer than any file's. -/
  | nameTooLong
  /-- What was read is not text. -/
  | invalidText
  /-- A writer took no more bytes. -/
  | sinkFull
  deriving DecidableEq

/-- The wording of a failure. -/
def Failure.message : Failure → String
  | missing => "No such file or directory (os error 2)"
  | directory => "Is a directory (os error 21)"
  | beyondFile => "Not a directory (os error 20)"
  | nameTooLong => "File name too long (os error 36)"
  | invalidText => "stream did not contain valid UTF-8"
  | sinkFull => "sink full"

/-- How much an entry of the log matters. -/
inductive LogLevel where
  | trace
  | debug
  | info
  | warn
  deriving DecidableEq

/-- The name of a level. -/
def LogLevel.name : LogLevel → String
  | trace => "TRACE"
  | debug => "DEBUG"
  | info => "INFO"
  | warn => "WARN"

/-- An entry of the log. -/
inductive LogEntry where
  /-- A token was read. -/
  | scanned (t : Token)
  /-- A scan is done: how many tokens without the one at the end, on which
  line, how many errors. -/
  | summary (tokens lastLine errors : Nat)
  /-- A file is about to be run. -/
  | running (path : String)
  /-- A diagnostic could not be written in full. -/
  | unwritten (cause : Failure)
  deriving DecidableEq

namespace LogEntry

/-- The level of an entry. -/
def level : LogEntry → LogLevel
  | scanned _ => .trace
  | summary _ _ _ => .debug
  | running _ => .info
  | unwritten _ => .warn

/-- The wording of an entry. -/
def message : LogEntry → String
  | scanned t => s!"scanned {t.display}"
  | summary tokens lastLine errors =>
    s!"scanned {tokens} tokens over {lastLine} lines with {errors} errors"
  | running path => s!"running {path}"
  | unwritten cause => s!"could not write error report: {cause.message}"

end LogEntry

end LoxFront
