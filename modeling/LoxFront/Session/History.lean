import LoxFront.Session.Prompt
/-!
# Histories

A history is a list of steps done to one session, one after the other,
whether the ones before failed or not.
-/

namespace LoxFront

/-- Something to do to a session. -/
inductive Step where
  /-- Run a text, listing to a writer with this room. -/
  | run (source : String) (out : Room)
  /-- Run a file with this content, listing to a writer with this room. -/
  | runFile (path : String) (content : Except Failure Bytes) (out : Room)
  /-- Prompt for the lines of an input. -/
  | prompt (input : Bytes)
  /-- Report an error. -/
  | report (line : Nat) (message : String)

namespace Session

/-- Does a step. -/
def perform (s : Session) : Step → Outcome × Session
  | .run source out => s.run source out
  | .runFile path content out => s.runFile path content out
  | .prompt input => s.prompt input
  | .report line message => s.report line message

/-- **Does steps in order**, and gives the outcome of each with the
session after it. -/
def performAll (s : Session) : List Step → List (Outcome × Session)
  | [] => []
  | step :: rest =>
    let (outcome, next) := s.perform step
    (outcome, next) :: next.performAll rest

end Session

end LoxFront
