import LoxFront.Session.Basic
/-!
# The prompt

The prompt takes its input line by line and runs each line as a source of
its own, so every line is line 1. A line that ran is forgotten with its
errors. Input is cut into lines at the byte of the newline alone, and the
end of a line, with all carriage returns and newlines it is made of, is no
part of the source.
-/

namespace LoxFront

/-- The byte that ends a line. -/
def newlineByte : UInt8 := 10

/-- Input cut into lines, each with the byte that ends it; what stands
behind the last such byte is a line too, unless it is empty. -/
def inputLines : Bytes → List Bytes
  | [] => []
  | b :: rest =>
    if b = newlineByte then [b] :: inputLines rest
    else
      match inputLines rest with
      | [] => [[b]]
      | line :: lines => (b :: line) :: lines

/-- A line without the carriage returns and newlines at its end. -/
def entry (line : String) : String :=
  .ofList (line.toList.reverse.dropWhile fun c => c == '\n' || c == '\r').reverse

/-- What the prompt shows before it reads a line. -/
def promptMark : String := "> "

namespace Session

/-- **Enters a line** that was read at the prompt. A line that is no text
is not run and leaves the session as it was. -/
def enter (s : Session) (line : Bytes) : Outcome × Session :=
  match decode? line with
  | none => (.ofFailure .invalidText, s)
  | some text =>
    let (outcome, last) := s.run (entry text) .unlimited
    (outcome, { last with hadError := false })

/-- Prompts for lines until there are no more or one fails. The mark is
shown before it is known whether there is a line. -/
def promptLines (s : Session) : List Bytes → Outcome × Session
  | [] => (.ofOutput (encode promptMark), s)
  | line :: rest =>
    let (entered, next) := s.enter line
    let shown := Outcome.ofOutput (encode promptMark) ++ entered
    if shown.failure.isSome then (shown, next)
    else
      let (others, last) := next.promptLines rest
      (shown ++ others, last)

/-- **The prompt** on an input. -/
def prompt (s : Session) (input : Bytes) : Outcome × Session :=
  s.promptLines (inputLines input)

end Session

/-- No byte of the input is lost in the lines. -/
theorem flatten_inputLines (input : Bytes) : (inputLines input).flatten = input := by
  induction input with
  | nil => rfl
  | cons b rest ih =>
    rw [inputLines]
    split
    · simp [ih]
    · split
      · next h => rw [h] at ih; simp [← ih]
      · next h => rw [h] at ih; simp [← ih]

end LoxFront
