import LoxFront.Command.Answer
/-!
# The program

The outer layer of the command line: it reads the arguments, the script or
the lines of the standard input, and writes what the answer holds. The
prompt shows its mark before it waits for a line, so here its lines are
entered one by one; what is written is what `LoxFront.Answer.ofPrompt`
holds.
-/

namespace LoxFront

/-- Writes bytes to a stream at once. -/
def writeBytes (stream : IO.FS.Stream) (bytes : Bytes) : IO Unit := do
  stream.write ⟨bytes.toArray⟩
  stream.flush

/-- Writes an answer and gives its code. -/
def giveAnswer (answer : Answer) : IO UInt32 := do
  writeBytes (← IO.getStdout) answer.stdout
  writeBytes (← IO.getStderr) answer.stderr
  return .ofNat answer.code

/-- The number under which a directory is refused as a file. The other
refusal of its kind is a path that goes on behind a file. -/
def directoryRefused : UInt32 := 21

/-- Why a file could not be read. -/
def failureOfError : IO.Error → Failure
  | .inappropriateType _ number _ => if number = directoryRefused then .directory else .beyondFile
  | .invalidArgument .. => .nameTooLong
  | _ => .missing

/-- The content of the file at a path. -/
def readContent (path : String) : IO (Except Failure Bytes) := do
  try return .ok (← IO.FS.readBinFile path).data.toList
  catch error => return .error (failureOfError error)

/-- Reads the bytes of a line, with the one that ends it; nothing at the
end of the input. -/
partial def readLine (stream : IO.FS.Stream) (before : Bytes) : IO Bytes := do
  match (← stream.read 1).data.toList with
  | [] => return before.reverse
  | b :: _ =>
    if b = newlineByte then return (b :: before).reverse
    else readLine stream (b :: before)

/-- Prompts for lines until the input ends or a line fails. -/
partial def promptLoop (session : Session) : IO UInt32 := do
  writeBytes (← IO.getStdout) (encode promptMark)
  match ← readLine (← IO.getStdin) [] with
  | [] => return 0
  | line =>
    let (outcome, next) := session.enter line
    let answer := Answer.ofOutcome outcome 0
    let code ← giveAnswer answer
    if answer.code = 0 then promptLoop next else return code

end LoxFront

open LoxFront in
/-- The command line. -/
def main (arguments : List String) : IO UInt32 := do
  match Request.ofArguments arguments with
  | .prompt => promptLoop .fresh
  | .script path => giveAnswer (.ofScript path (← readContent path))
  | _ => giveAnswer (.ofArguments arguments ⟨[]⟩ [])
