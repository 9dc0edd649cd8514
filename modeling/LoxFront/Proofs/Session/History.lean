import LoxFront.Proofs.Session.Prompt
import LoxFront.Session.Mark
/-!
# The session over a history

A session whose diagnostics all find room does each step as a session does
that is new (`perform_eq_fresh`): what it did before shows in its flag
alone, and no step looks at that. The flag follows from the marks of the
steps. Each step takes it from what it is for the marks before to what it
is for its own behind them (`Remembers.perform`), so it does after a whole
history (`Remembers.performAll`).
-/

namespace LoxFront

/-! ## Errors since the last line -/

/-- An error since the last line is an error. -/
theorem reported_mem_of_errorSince {marks : List Mark} (h : ErrorSince marks) :
    .reported ∈ marks := by
  obtain ⟨before, after, rfl, -⟩ := h
  exact List.mem_append_right before List.mem_cons_self

/-- Marks that follow count for themselves, and what was before them
counts if none of them ends a line. -/
theorem errorSince_append {past marks : List Mark} :
    ErrorSince (past ++ marks) ↔ ErrorSince past ∧ .lineDone ∉ marks ∨ ErrorSince marks := by
  constructor
  · rintro ⟨before, after, heq, hafter⟩
    rcases List.append_eq_append_iff.1 heq with ⟨front, rfl, rfl⟩ | ⟨behind, rfl, hmarks⟩
    · exact .inr ⟨front, after, rfl, hafter⟩
    · rcases List.cons_eq_append_iff.1 hmarks with ⟨rfl, rfl⟩ | ⟨more, rfl, rfl⟩
      · exact .inr ⟨[], after, rfl, hafter⟩
      · rw [List.mem_append, not_or] at hafter
        exact .inl ⟨⟨before, more, rfl, hafter.1⟩, hafter.2⟩
  · rintro (⟨⟨before, after, rfl, hafter⟩, hmarks⟩ | ⟨before, after, rfl, hafter⟩)
    · refine ⟨before, after ++ marks, by simp, ?_⟩
      rw [List.mem_append, not_or]
      exact ⟨hafter, hmarks⟩
    · exact ⟨past ++ before, after, (List.append_assoc ..).symm, hafter⟩

/-- There was an error since the last line, if there was before or a source
has brought some. -/
theorem errorSince_append_reported {past : List Mark} {errors : List ScanError} :
    ErrorSince (past ++ errors.map fun _ => .reported) ↔ ErrorSince past ∨ errors ≠ [] := by
  have hmarks : ErrorSince (errors.map fun _ => .reported) ↔ errors ≠ [] := by
    constructor
    · rintro h rfl
      exact List.not_mem_nil (reported_mem_of_errorSince h)
    · intro h
      obtain ⟨e, rest, rfl⟩ := List.exists_cons_of_ne_nil h
      exact ⟨[], _, rfl, by simp⟩
  rw [errorSince_append, hmarks, and_iff_left (by simp)]

/-- Behind a line of the prompt no error is left. -/
theorem not_errorSince_append_lineDone (past : List Mark) : ¬ErrorSince (past ++ [.lineDone]) := by
  rw [errorSince_append]
  rintro (⟨-, h⟩ | h)
  · exact h (List.mem_singleton_self _)
  · cases List.mem_singleton.1 (reported_mem_of_errorSince h)

namespace Session

variable {s : Session} {past : List Mark}

/-! ## Lines that are text and lines that are not -/

/-- **Induction along the lines at a prompt**, which end at the first that
is no text. -/
@[elab_as_elim]
theorem lines_induction {motive : List Bytes → Prop} (nil : motive [])
    (broken : ∀ line rest, decode? line = none → motive (line :: rest))
    (text : ∀ text rest, motive rest → motive (encode text :: rest)) (lines : List Bytes) :
    motive lines := by
  induction lines with
  | nil => exact nil
  | cons line rest ih =>
    cases htext : decode? line with
    | none => exact broken line rest htext
    | some t =>
      obtain rfl := decode?_eq_some_iff.1 htext
      exact text t rest ih

/-- A line that is no text ends the prompt and leaves the session as it is. -/
theorem promptLines_of_not_text {line : Bytes} (h : decode? line = none) (s : Session)
    (rest : List Bytes) :
    s.promptLines (line :: rest) =
      (.ofOutput (encode promptMark) ++ .ofFailure .invalidText, s) := by
  have henter : s.enter line = (.ofFailure .invalidText, s) := by rw [enter, h]
  rw [promptLines, henter]
  rfl

/-- A line of text is run, and the prompt goes on without the flag. -/
theorem promptLines_encode (s : Session) (text : String) (rest : List Bytes) :
    s.promptLines (encode text :: rest) =
      (.ofOutput (encode promptMark) ++ (s.run (entry text) .unlimited).1 ++
          (promptLines ⟨false, (s.run (entry text) .unlimited).2.room⟩ rest).1,
        (promptLines ⟨false, (s.run (entry text) .unlimited).2.room⟩ rest).2) := by
  have hdone : (s.enter (encode text)).1.failure = none := by
    rw [enter_encode]
    exact failure_run s _ .unlimited
  rw [promptLines_cons hdone, enter_encode]

/-- A file of text is run as the text is, with one entry of the log in front. -/
theorem runFile_of_text {content : Except Failure Bytes} {source : String}
    (h : content.toOption.bind decode? = some source) (s : Session) (path : String) (out : Room) :
    s.runFile path content out =
      (.ofLog (.running path) ++ (s.run source out).1, (s.run source out).2) := by
  cases content with
  | error failure => cases h
  | ok bytes =>
    have htext : decode? bytes = some source := h
    simp only [runFile, htext]

/-- A file that is not read as text fails for a reason of its own, and
leaves the session as it was. -/
theorem runFile_of_not_text {content : Except Failure Bytes}
    (h : content.toOption.bind decode? = none) (path : String) (out : Room) :
    ∃ failure, ∀ s : Session,
      s.runFile path content out = (.ofLog (.running path) ++ .ofFailure failure, s) := by
  cases content with
  | error failure => exact ⟨failure, fun _ => rfl⟩
  | ok bytes =>
    have htext : decode? bytes = none := h
    exact ⟨.invalidText, fun s => by simp only [runFile, htext]⟩

/-! ## What a step does -/

/-- A run does what it does on a new session. -/
theorem run_eq_fresh (h : s.room = .unlimited) (source : String) (out : Room) :
    (s.run source out).1 = (fresh.run source out).1 ∧ (s.run source out).2.room = .unlimited := by
  have hfresh : s.room = fresh.room := h
  exact ⟨(run_congr hfresh source out).1, (run_of_unlimited h source out).2⟩

theorem runFile_eq_fresh (h : s.room = .unlimited) (path : String)
    (content : Except Failure Bytes) (out : Room) :
    (s.runFile path content out).1 = (fresh.runFile path content out).1 ∧
      (s.runFile path content out).2.room = .unlimited := by
  cases htext : content.toOption.bind decode? with
  | none =>
    obtain ⟨failure, hfails⟩ := runFile_of_not_text htext path out
    rw [hfails, hfails]
    exact ⟨rfl, h⟩
  | some source =>
    obtain ⟨houtcome, hroom⟩ := run_eq_fresh h source out
    rw [runFile_of_text htext, runFile_of_text htext, houtcome]
    exact ⟨rfl, hroom⟩

/-- A line that is text leaves a session that is new, so only the first
one can find another. -/
theorem promptLines_eq_fresh (h : s.room = .unlimited) (lines : List Bytes) :
    (s.promptLines lines).1 = (fresh.promptLines lines).1 ∧
      (s.promptLines lines).2.room = .unlimited := by
  induction lines using lines_induction generalizing s with
  | nil => exact ⟨rfl, h⟩
  | broken line rest hline =>
    rw [promptLines_of_not_text hline, promptLines_of_not_text hline]
    exact ⟨rfl, h⟩
  | text text rest ih =>
    obtain ⟨houtcome, hroom⟩ := run_eq_fresh h (entry text) .unlimited
    have hfresh := (run_eq_fresh (s := fresh) rfl (entry text) .unlimited).2
    rw [promptLines_encode, promptLines_encode, houtcome, hroom, hfresh]
    exact ⟨rfl, (ih (s := fresh) rfl).2⟩

/-- **A step does what it does on a new session**, and leaves as much room
for diagnostics. -/
theorem perform_eq_fresh (h : s.room = .unlimited) (step : Step) :
    (s.perform step).1 = (fresh.perform step).1 ∧ (s.perform step).2.room = .unlimited := by
  cases step with
  | run source out => exact run_eq_fresh h source out
  | runFile path content out => exact runFile_eq_fresh h path content out
  | prompt input => exact promptLines_eq_fresh h (inputLines input)
  | report line message =>
    rw [perform, perform, report, report, h]
    exact ⟨rfl, rfl⟩

/-- And so does every step of a history. -/
theorem map_fst_performAll (h : s.room = .unlimited) (steps : List Step) :
    (s.performAll steps).map Prod.fst = steps.map fun step => (fresh.perform step).1 := by
  induction steps generalizing s with
  | nil => rfl
  | cons step rest ih =>
    obtain ⟨houtcome, hroom⟩ := perform_eq_fresh h step
    rw [performAll, List.map_cons, List.map_cons, ih hroom, houtcome]

/-! ## What the flag tells -/

/-- The flag of a session tells whether there was an error since the last
line, by the marks of all that happened to it. -/
def Remembers (s : Session) (past : List Mark) : Prop := s.hadError = true ↔ ErrorSince past

theorem remembers_fresh : fresh.Remembers [] := by
  constructor
  · exact fun h => absurd h Bool.false_ne_true
  · exact fun h => absurd (reported_mem_of_errorSince h) List.not_mem_nil

/-- A run adds the marks of its source. -/
theorem Remembers.run (h : s.Remembers past) (source : String) (out : Room) :
    (s.run source out).2.Remembers (past ++ sourceMarks source) := by
  rw [Remembers, hadError_run, sourceMarks, errorSince_append_reported]
  exact or_congr_left h

theorem Remembers.runFile (h : s.Remembers past) (path : String) (content : Except Failure Bytes)
    (out : Room) :
    (s.runFile path content out).2.Remembers
      (past ++ (content.toOption.bind decode?).elim [] sourceMarks) := by
  cases htext : content.toOption.bind decode? with
  | none =>
    obtain ⟨failure, hfails⟩ := runFile_of_not_text htext path out
    rw [hfails, Option.elim_none, List.append_nil]
    exact h
  | some source =>
    rw [runFile_of_text htext]
    exact h.run source out

/-- The prompt adds the marks of its lines, up to one that is no text. -/
theorem Remembers.promptLines (h : s.Remembers past) (lines : List Bytes) :
    (s.promptLines lines).2.Remembers (past ++ lineMarks lines) := by
  induction lines using lines_induction generalizing s past with
  | nil =>
    rw [lineMarks, List.append_nil]
    exact h
  | broken line rest hline =>
    rw [promptLines_of_not_text hline, lineMarks, hline, List.append_nil]
    exact h
  | text text rest ih =>
    -- whatever the line reported, it is done, and the rest starts from there
    have hcleared : Remembers ⟨false, (s.run (entry text) .unlimited).2.room⟩
        (past ++ sourceMarks (entry text) ++ [.lineDone]) :=
      iff_of_false Bool.false_ne_true (not_errorSince_append_lineDone _)
    have hrest := ih hcleared
    rw [List.append_assoc, List.append_assoc, List.singleton_append] at hrest
    rw [promptLines_encode, lineMarks, decode?_encode]
    exact hrest

/-- **A step adds its marks.** -/
theorem Remembers.perform (h : s.Remembers past) (step : Step) :
    (s.perform step).2.Remembers (past ++ step.marks) := by
  cases step with
  | run source out => exact h.run source out
  | runFile path content out => exact h.runFile path content out
  | prompt input => exact h.promptLines (inputLines input)
  | report line message =>
    refine iff_of_true rfl (errorSince_append.2 (.inr ⟨[], [], rfl, List.not_mem_nil⟩))

/-- **After each step of a history the flag tells of the steps up to it.** -/
theorem Remembers.performAll {done : Outcome × Session} (h : s.Remembers past) (steps : List Step)
    {i : Nat} (hdone : (s.performAll steps)[i]? = some done) :
    done.2.Remembers (past ++ (steps.take (i + 1)).flatMap Step.marks) := by
  induction steps generalizing s past i with
  | nil => cases hdone
  | cons step rest ih =>
    rw [List.take_succ_cons, List.flatMap_cons, ← List.append_assoc]
    cases i with
    | zero =>
      obtain rfl : s.perform step = done := Option.some.inj hdone
      rw [List.take_zero, List.flatMap_nil, List.append_nil]
      exact h.perform step
    | succ i => exact ih (h.perform step) hdone

/-! ## What clears the flag -/

theorem hadError_promptLines_of_false (h : s.hadError = false) (lines : List Bytes) :
    (s.promptLines lines).2.hadError = false := by
  induction lines using lines_induction generalizing s with
  | nil => exact h
  | broken line rest hline =>
    rw [promptLines_of_not_text hline]
    exact h
  | text text rest ih =>
    rw [promptLines_encode]
    exact ih rfl

/-- A line of text clears the flag, for the prompt clears it behind every
line. -/
theorem hadError_prompt {input line : Bytes} {rest : List Bytes}
    (hinput : inputLines input = line :: rest) (hline : (decode? line).isSome) (s : Session) :
    (s.prompt input).2.hadError = false := by
  obtain ⟨text, htext⟩ := Option.isSome_iff_exists.1 hline
  obtain rfl := decode?_eq_some_iff.1 htext
  rw [prompt, hinput, promptLines_encode]
  exact hadError_promptLines_of_false rfl rest

/-- A first line that is no text leaves the session as it is. -/
theorem prompt_of_not_text {input line : Bytes} {rest : List Bytes}
    (hinput : inputLines input = line :: rest) (hline : decode? line = none) (s : Session) :
    (s.prompt input).2 = s := by
  rw [prompt, hinput, promptLines_of_not_text hline]

/-- A file never clears the flag. -/
theorem hadError_runFile (h : s.hadError = true) (path : String) (content : Except Failure Bytes)
    (out : Room) : (s.runFile path content out).2.hadError = true := by
  cases htext : content.toOption.bind decode? with
  | none =>
    obtain ⟨failure, hfails⟩ := runFile_of_not_text htext path out
    rw [hfails]
    exact h
  | some source =>
    rw [runFile_of_text htext]
    exact (hadError_run s source out).2 (.inl h)

/-- **A history on a session that starts anew and has room for all
diagnostics.** Each step writes, logs and fails as it would on a new
session. After each the flag tells whether an error was reported since the
session began or the last line at a prompt ran to its end. So running a
source or a file never clears the flag, a file that is not read as text
leaves the session as it was, a prompt clears the flag if its first line
is text, whatever follows, and without such a line leaves the session as
it was. -/
theorem performAll_fresh (steps : List Step) :
    (fresh.performAll steps).map Prod.fst = steps.map (fun step => (fresh.perform step).1) ∧
      (∀ i done, (fresh.performAll steps)[i]? = some done →
        (done.2.hadError = true ↔ ErrorSince ((steps.take (i + 1)).flatMap Step.marks))) ∧
      (∀ (s : Session) (source : String) (out : Room),
        s.hadError = true → (s.run source out).2.hadError = true) ∧
      (∀ (s : Session) (path : String) (content : Except Failure Bytes) (out : Room),
        (s.hadError = true → (s.runFile path content out).2.hadError = true) ∧
          (content.toOption.bind decode? = none → (s.runFile path content out).2 = s)) ∧
      (∀ s : Session, (s.prompt []).2 = s) ∧
      (∀ (s : Session) (input line : Bytes) (rest : List Bytes),
        inputLines input = line :: rest →
          ((decode? line).isSome → (s.prompt input).2.hadError = false) ∧
            (decode? line = none → (s.prompt input).2 = s)) := by
  refine ⟨map_fst_performAll rfl steps, fun i done hdone => ?flag, fun s source out h => ?run,
    fun s path content out => ⟨fun h => hadError_runFile h path content out, fun h => ?file⟩,
    fun _ => rfl,
    fun s input line rest hinput => ⟨fun h => hadError_prompt hinput h s,
      fun h => prompt_of_not_text hinput h s⟩⟩
  case flag =>
    exact remembers_fresh.performAll steps hdone
  case run =>
    exact (hadError_run s source out).2 (.inl h)
  case file =>
    obtain ⟨failure, hfails⟩ := runFile_of_not_text h path out
    rw [hfails]

/-- The flag outlives a listing that is cut off, is cleared by a line before
one that is no text, and is not touched by a file that is missing. -/
example :
    (fresh.performAll [.run "@" (.bytes 2), .prompt [97, 10, 255], .report 7 "odd",
      .runFile "absent.lox" (.error .missing) .unlimited]).map
        (fun done => (done.1.failure, done.2.hadError)) =
      [(some .sinkFull, true), (some .invalidText, false), (none, true), (some .missing, true)] := by
  decide +kernel

end Session

end LoxFront
