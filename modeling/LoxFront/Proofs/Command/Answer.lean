import LoxFront.Command.Answer
import LoxFront.Proofs.Session.History
import LoxFront.Proofs.Session.Prompt
/-!
# Answers are what a session does

The command line adds two things to a session: an exit code, and a last
line on the stream of errors if something failed. All else it writes is a
session's, output and diagnostics each on a stream of its own. Only one of
its two sources of input counts, the files for a script and the standard
input for the prompt, and neither where no session is asked for.

The program itself prompts line by line. What it writes before it stops is
what the answer holds (`ofPrompt_eq_entered`).
-/

namespace LoxFront

open Session (fresh)

namespace Answer

variable {outcome : Outcome} {failure : Failure}

/-! ## Outcomes -/

theorem ofOutcome_of_none (h : outcome.failure = none) (code : Nat) :
    ofOutcome outcome code = ⟨code, outcome.output, outcome.diagnostics⟩ := by
  rw [ofOutcome, h]

theorem ofOutcome_of_some (h : outcome.failure = some failure) (code : Nat) :
    ofOutcome outcome code = ⟨failureCode, outcome.output,
      outcome.diagnostics ++ encode (failureText failure)⟩ := by
  rw [ofOutcome, h]

/-! ## Scripts -/

/-- A script is run on a fresh session, whose flag decides about the code. -/
theorem ofScript_eq (path : String) (content : Except Failure Bytes) :
    ofScript path content =
      let done := fresh.runFile path content .unlimited
      ofOutcome done.1 (if done.2.hadError then dataCode else 0) := rfl

/-- What is read as text holds the bytes of the text. -/
theorem eq_ok_encode {content : Except Failure Bytes} {source : String}
    (h : content.toOption.bind decode? = some source) : content = .ok (encode source) := by
  cases content with
  | error failure => cases h
  | ok bytes => rw [decode?_eq_some_iff.1 h]

/-- A script that is text runs without failing. -/
theorem failure_runFile_of_text {content : Except Failure Bytes} {source : String}
    (h : content.toOption.bind decode? = some source) (path : String) :
    (fresh.runFile path content .unlimited).1.failure = none := by
  rw [Session.runFile_of_text h]
  exact Session.failure_run fresh source .unlimited

/-- **A script that is text** is answered with what its run writes, and a
code that tells whether its scan had errors. -/
theorem ofScript_of_text {content : Except Failure Bytes} {source : String}
    (h : content.toOption.bind decode? = some source) (path : String) :
    ofScript path content =
      let done := fresh.runFile path content .unlimited
      ⟨if (scan source).errors = [] then 0 else dataCode, done.1.output, done.1.diagnostics⟩ := by
  have hflag : (fresh.runFile path content .unlimited).2.hadError = true ↔
      (scan source).errors ≠ [] := by
    rw [Session.runFile_of_text h, Session.hadError_run]
    exact or_iff_right Bool.false_ne_true
  rw [ofScript_eq, ofOutcome_of_none (failure_runFile_of_text h path)]
  by_cases herrors : (scan source).errors = []
  · rw [if_pos herrors, if_neg fun hset => hflag.1 hset herrors]
  · rw [if_neg herrors, if_pos (hflag.2 herrors)]

/-- **A script that is no text** is answered with the reason alone. -/
theorem ofScript_of_not_text {content : Except Failure Bytes}
    (h : content.toOption.bind decode? = none) (path : String) :
    ∃ failure, (fresh.runFile path content .unlimited).1.failure = some failure ∧
      ofScript path content = ⟨failureCode, [], encode (failureText failure)⟩ := by
  obtain ⟨failure, hfails⟩ := Session.runFile_of_not_text h path .unlimited
  have hfailure : (fresh.runFile path content .unlimited).1.failure = some failure := by
    rw [hfails]
    rfl
  refine ⟨failure, hfailure, ?_⟩
  rw [ofScript_eq, ofOutcome_of_some hfailure, hfails]
  rfl

/-! ## The prompt -/

/-- What is written at the prompt when lines are entered one by one, the
mark before each, until there are no more or one fails. -/
def entered (s : Session) : List Bytes → Answer
  | [] => ⟨0, encode promptMark, []⟩
  | line :: rest =>
    let answer := ofOutcome (s.enter line).1 0
    if answer.code = 0 then
      let others := entered (s.enter line).2 rest
      ⟨others.code, encode promptMark ++ answer.stdout ++ others.stdout,
        answer.stderr ++ others.stderr⟩
    else ⟨answer.code, encode promptMark ++ answer.stdout, answer.stderr⟩

/-- What is done behind something that did not fail is answered behind
it. -/
theorem ofOutcome_append {first : Outcome} (h : first.failure = none) (second : Outcome)
    (code : Nat) :
    ofOutcome (first ++ second) code =
      let others := ofOutcome second code
      ⟨others.code, first.output ++ others.stdout, first.diagnostics ++ others.stderr⟩ := by
  have hfailure : (first ++ second).failure = second.failure := by
    rw [Outcome.failure_append, h, Option.none_or]
  cases hsecond : second.failure with
  | none => rw [ofOutcome_of_none (hfailure.trans hsecond), ofOutcome_of_none hsecond]; rfl
  | some failure =>
    rw [ofOutcome_of_some (hfailure.trans hsecond), ofOutcome_of_some hsecond,
      Outcome.diagnostics_append, List.append_assoc]
    rfl

/-- **The outcome of the prompt is answered line by line.** -/
theorem ofOutcome_promptLines (s : Session) (lines : List Bytes) :
    ofOutcome (s.promptLines lines).1 0 = entered s lines := by
  induction lines using Session.lines_induction generalizing s with
  | nil => rfl
  | broken line rest hline =>
    have henter : s.enter line = (.ofFailure .invalidText, s) := by rw [Session.enter, hline]
    rw [Session.promptLines_of_not_text hline, entered, henter]
    rfl
  | text text rest ih =>
    have hdone : (s.enter (encode text)).1.failure = none := by
      rw [Session.enter_encode]
      exact Session.failure_run s _ .unlimited
    have hshown : (Outcome.ofOutput (encode promptMark) ++ (s.enter (encode text)).1).failure =
        none := by
      rw [Outcome.failure_append, hdone]
      rfl
    rw [Session.promptLines_cons hdone, ofOutcome_append hshown, ih, entered,
      ofOutcome_of_none hdone, if_pos rfl]
    rfl

/-- **The prompt answers line by line.** -/
theorem ofPrompt_eq_entered (input : Bytes) : ofPrompt input = entered fresh (inputLines input) :=
  ofOutcome_promptLines fresh (inputLines input)

/-! ## The answer to arguments -/

/-- What is asked for decides what is looked at. -/
theorem ofArguments_eq (arguments : List String) (folder : Folder) (stdin : Bytes) :
    ofArguments arguments folder stdin =
      match Request.ofArguments arguments with
      | .help => ⟨0, encode helpText, []⟩
      | .usage => ⟨usageCode, encode usageText, []⟩
      | .script path => ofScript path (folder.read path)
      | .prompt => ofPrompt stdin := rfl

/-- **The command line does what a session does.** Arguments that ask for
help or make no sense are answered without a look at the files and the
standard input, and with nothing on the stream of errors. A script is run
on a new session, whatever the standard input: if that fails, all that is
written is the reason, and if not, its output and its diagnostics, and the
code tells whether the scan of the script had errors. The prompt takes the
standard input on a new session, whatever the files, and its code tells
only whether it failed; then the reason stands behind the diagnostics. -/
theorem ofArguments_refines_session (arguments : List String) (folder : Folder) (stdin : Bytes) :
    let answer := ofArguments arguments folder stdin
    match Request.ofArguments arguments with
    | .help => answer.code = 0 ∧ answer.stderr = [] ∧
        ∀ folder' stdin', ofArguments arguments folder' stdin' = answer
    | .usage => answer.code = 64 ∧ answer.stderr = [] ∧
        ∀ folder' stdin', ofArguments arguments folder' stdin' = answer
    | .script path =>
      let done := fresh.runFile path (folder.read path) .unlimited
      (∀ stdin', ofArguments arguments folder stdin' = answer) ∧
        match done.1.failure with
        | some failure => answer = ⟨1, [], encode s!"Error: {failure.message}\n"⟩
        | none => ∃ source, folder.read path = .ok (encode source) ∧
            answer = ⟨if (scan source).errors = [] then 0 else 65, done.1.output,
              done.1.diagnostics⟩
    | .prompt =>
      let done := fresh.prompt stdin
      (∀ folder', ofArguments arguments folder' stdin = answer) ∧
        match done.1.failure with
        | some failure => answer = ⟨1, done.1.output,
            done.1.diagnostics ++ encode s!"Error: {failure.message}\n"⟩
        | none => answer = ⟨0, done.1.output, done.1.diagnostics⟩ := by
  have hanswer := ofArguments_eq arguments
  cases hrequest : Request.ofArguments arguments with
  | help =>
    simp only [hrequest] at hanswer
    exact ⟨congrArg code (hanswer folder stdin), congrArg stderr (hanswer folder stdin),
      fun folder' stdin' => (hanswer folder' stdin').trans (hanswer folder stdin).symm⟩
  | usage =>
    simp only [hrequest] at hanswer
    exact ⟨congrArg code (hanswer folder stdin), congrArg stderr (hanswer folder stdin),
      fun folder' stdin' => (hanswer folder' stdin').trans (hanswer folder stdin).symm⟩
  | script path =>
    simp only [hrequest] at hanswer
    refine ⟨fun stdin' => (hanswer folder stdin').trans (hanswer folder stdin).symm, ?_⟩
    cases htext : (folder.read path).toOption.bind decode? with
    | none =>
      obtain ⟨failure, hfailure, hscript⟩ := ofScript_of_not_text htext path
      rw [hfailure]
      exact (hanswer folder stdin).trans hscript
    | some source =>
      rw [failure_runFile_of_text htext path]
      have hscript := ofScript_of_text htext path
      exact ⟨source, eq_ok_encode htext, (hanswer folder stdin).trans hscript⟩
  | prompt =>
    simp only [hrequest] at hanswer
    refine ⟨fun folder' => (hanswer folder' stdin).trans (hanswer folder stdin).symm, ?_⟩
    cases hfailure : (fresh.prompt stdin).1.failure with
    | some failure => exact (hanswer folder stdin).trans (ofOutcome_of_some hfailure 0)
    | none => exact (hanswer folder stdin).trans (ofOutcome_of_none hfailure 0)

/-- A script by the name of a flag that has an error, and a prompt that
fails behind one. -/
example :
    ofArguments ["--", "-h"] ⟨[("-h", encode "@")]⟩ [64] =
        ⟨65, encode "Eof \n", encode "[line 1] Error: Unexpected character\n"⟩ ∧
      (ofArguments [] ⟨[("-h", encode "@")]⟩ [64, 10, 255]).code = 1 ∧
      (ofArguments [] ⟨[("-h", encode "@")]⟩ [64, 10, 255]).stdout = encode "> Eof \n> " := by
  decide +kernel

end Answer

end LoxFront
