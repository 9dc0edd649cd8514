import LoxFront.Session.History
/-!
# Marks

What a history comes to for the flag is told by two kinds of marks, in
order: an error is reported, and a line at the prompt has run to its end.
They are read off the steps and need no session. The room an output writer
has leaves no mark, since all errors of a source are reported before it is
listed.
-/

namespace LoxFront

/-- Something that happens in a history. -/
inductive Mark where
  /-- An error is reported. -/
  | reported
  /-- A line at the prompt has run to its end. -/
  | lineDone
  deriving DecidableEq

/-- **An error was reported, and no line has run to its end since.** -/
def ErrorSince (marks : List Mark) : Prop :=
  ∃ before after, marks = before ++ .reported :: after ∧ .lineDone ∉ after

/-- The marks of a source that is run: one for each of its errors. -/
def sourceMarks (source : String) : List Mark := (scan source).errors.map fun _ => .reported

/-- The marks of lines at the prompt. The first that is no text ends them. -/
def lineMarks : List Bytes → List Mark
  | [] => []
  | line :: rest =>
    match decode? line with
    | none => []
    | some text => sourceMarks (entry text) ++ .lineDone :: lineMarks rest

/-- **The marks of a step.** -/
def Step.marks : Step → List Mark
  | run source _ => sourceMarks source
  | runFile _ content _ => (content.toOption.bind decode?).elim [] sourceMarks
  | prompt input => lineMarks (inputLines input)
  | report _ _ => [.reported]

end LoxFront
