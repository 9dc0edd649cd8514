import LoxFront.Proofs.Session.History
/-!
# The prompt on an input

An input of any bytes falls into lines in one way (`lines_iff`). The prompt
runs those before the first that is no text (`leadingTexts`), each without
the end of its line and as a source of its own, and what it does is what
these runs do, one behind the other. A line has its newline at its end
alone (`exists_line_of_encode`), so what is run of it stands on line 1.
-/

namespace LoxFront

/-! ## Input in lines -/

/-- **Input in lines**: behind each byte of a newline the next line begins,
and what stands behind the last one is a line too, unless it is empty. -/
inductive Lines : Bytes → List Bytes → Prop
  | nil : Lines [] []
  /-- A line without a newline is the last. -/
  | last {line : Bytes} : newlineByte ∉ line → line ≠ [] → Lines line [line]
  | cons {body rest : Bytes} {lines : List Bytes} :
      newlineByte ∉ body → Lines rest lines →
      Lines (body ++ newlineByte :: rest) ((body ++ [newlineByte]) :: lines)

/-- The input is read in lines: each ends with its newline, the last perhaps
without. -/
theorem lines_inputLines (input : Bytes) : Lines input (inputLines input) := by
  induction input with
  | nil => exact .nil
  | cons b rest ih =>
    rw [inputLines]
    by_cases hb : b = newlineByte
    · rw [if_pos hb, hb]
      exact Lines.cons List.not_mem_nil ih
    · have hnot : ∀ {line : Bytes}, newlineByte ∉ line → newlineByte ∉ b :: line :=
        List.not_mem_cons_of_ne_of_not_mem (Ne.symm hb)
      rw [if_neg hb]
      generalize inputLines rest = lines at ih
      -- the byte goes to the first line of the rest, or is a line if there is none
      cases ih with
      | nil => exact Lines.last (hnot List.not_mem_nil) (List.cons_ne_nil b [])
      | last hline _ => exact Lines.last (hnot hline) (List.cons_ne_nil b _)
      | cons hbody hrest => exact Lines.cons (hnot hbody) hrest

/-- **Input falls into lines in one way.** -/
theorem lines_iff {input : Bytes} {lines : List Bytes} :
    Lines input lines ↔ lines = inputLines input := by
  constructor
  · intro h
    induction h with
    | nil => rfl
    | last hline hne => exact (inputLines_of_not_mem hline hne).symm
    | cons hbody _ ih => rw [inputLines_append hbody, ih]
  · rintro rfl
    exact lines_inputLines input

/-- A newline ends the line it stands in. -/
theorem eq_nil_of_mem_inputLines {input before after : Bytes}
    (h : before ++ newlineByte :: after ∈ inputLines input) : after = [] := by
  have hlines := lines_inputLines input
  generalize inputLines input = lines at h hlines
  induction hlines with
  | nil => exact absurd h List.not_mem_nil
  | last hline _ =>
    rw [← List.mem_singleton.1 h] at hline
    exact absurd (List.mem_append_right before List.mem_cons_self) hline
  | @cons body _ _ hbody _ ih =>
    rcases List.mem_cons.1 h with hfirst | hmem
    · by_contra hne
      have hfront : before ++ newlineByte :: after.dropLast = body := by
        have hdrop := congrArg List.dropLast hfirst
        rwa [List.dropLast_concat, List.dropLast_append_of_ne_nil (List.cons_ne_nil _ _),
          List.dropLast_cons_of_ne_nil hne] at hdrop
      exact hbody (hfront ▸ List.mem_append_right before List.mem_cons_self)
    · exact ih hmem

/-- **A line that is text** has a newline at its end or none. -/
theorem exists_line_of_encode {input : Bytes} {text : String}
    (h : encode text ∈ inputLines input) :
    ∃ line ending : List Char, text = .ofList (line ++ ending) ∧ '\n' ∉ line ∧
      (ending = [] ∨ ending = ['\n']) := by
  have hline : '\n' ∉ (cutAt '\n' text.toList).1 := not_mem_takeWhile_bne _ _
  rcases eq_cutAt_append text.toList with hcut | ⟨hcut, -⟩
  · refine ⟨_, ['\n'], ?_, hline, .inr rfl⟩
    rw [← String.ofList_toList (s := text), hcut, encode_newline] at h
    have hempty : String.ofList (cutAt '\n' text.toList).2 = "" :=
      encode_injective (eq_nil_of_mem_inputLines h)
    have hnil : (cutAt '\n' text.toList).2 = [] := String.ofList_injective hempty
    rw [hnil] at hcut
    rw [← hcut, String.ofList_toList]
  · refine ⟨_, [], ?_, hline, .inl rfl⟩
    rw [List.append_nil, ← hcut, String.ofList_toList]

/-! ## The end of a line -/

/-- A text, and what is left of it without the carriage returns and
newlines at its end. -/
def EndStripped (text source : String) : Prop :=
  ∃ ending : List Char, text.toList = source.toList ++ ending ∧
    (∀ c ∈ ending, isLineEnd c = true) ∧ ∀ c ∈ source.toList.getLast?, isLineEnd c = false

/-- What is run of a line is the line without the line ends behind it. -/
theorem endStripped_entry (text : String) : EndStripped text (entry text) := by
  have hentry := entry_ofList text.toList
  rw [String.ofList_toList] at hentry
  refine ⟨text.toList.rtakeWhile isLineEnd, ?_, fun c => List.mem_rtakeWhile_imp, ?_⟩
  · rw [hentry, String.toList_ofList, List.rdropWhile_append_rtakeWhile]
  · intro c hc
    rw [hentry, String.toList_ofList] at hc
    obtain ⟨hne, rfl⟩ := List.mem_getLast?_eq_getLast hc
    exact Bool.eq_false_iff.2 (List.rdropWhile_last_not isLineEnd _ hne)

/-! ## The lines that are run -/

/-- The texts of the lines before the first that is no text. -/
def leadingTexts (lines : List Bytes) : List String :=
  (lines.takeWhile fun line => (decode? line).isSome).filterMap decode?

theorem leadingTexts_of_not_text {line : Bytes} (h : decode? line = none) (rest : List Bytes) :
    leadingTexts (line :: rest) = [] := by
  simp [leadingTexts, h]

theorem leadingTexts_encode (text : String) (rest : List Bytes) :
    leadingTexts (encode text :: rest) = text :: leadingTexts rest := by
  simp [leadingTexts]

theorem encode_mem_of_mem_leadingTexts {lines : List Bytes} {text : String}
    (h : text ∈ leadingTexts lines) : encode text ∈ lines := by
  obtain ⟨line, hline, htext⟩ := List.mem_filterMap.1 h
  rw [← decode?_eq_some_iff.1 htext]
  exact (List.takeWhile_sublist _).subset hline

namespace Session

variable {s : Session}

/-- The prompt shows its mark and then the listing, for each line that is
text, and the mark once more. -/
theorem output_promptLines (h : s.room = .unlimited) (lines : List Bytes) :
    (s.promptLines lines).1.output =
      (leadingTexts lines).flatMap (fun text =>
        encode promptMark ++ (fresh.run (entry text) .unlimited).1.output) ++
      encode promptMark := by
  induction lines using lines_induction generalizing s with
  | nil => rfl
  | broken line rest hline =>
    rw [promptLines_of_not_text hline, leadingTexts_of_not_text hline]
    rfl
  | text text rest ih =>
    obtain ⟨houtcome, hroom⟩ := run_eq_fresh h (entry text) .unlimited
    have hrest := ih (s := ⟨false, (s.run (entry text) .unlimited).2.room⟩) hroom
    rw [promptLines_encode, leadingTexts_encode, List.flatMap_cons, List.append_assoc,
      Outcome.output_append, Outcome.output_append, houtcome, hrest]
    rfl

/-- The diagnostics are those of the lines, one after the other. -/
theorem diagnostics_promptLines (h : s.room = .unlimited) (lines : List Bytes) :
    (s.promptLines lines).1.diagnostics =
      (leadingTexts lines).flatMap fun text =>
        (fresh.run (entry text) .unlimited).1.diagnostics := by
  induction lines using lines_induction generalizing s with
  | nil => rfl
  | broken line rest hline =>
    rw [promptLines_of_not_text hline, leadingTexts_of_not_text hline]
    rfl
  | text text rest ih =>
    obtain ⟨houtcome, hroom⟩ := run_eq_fresh h (entry text) .unlimited
    have hrest := ih (s := ⟨false, (s.run (entry text) .unlimited).2.room⟩) hroom
    rw [promptLines_encode, leadingTexts_encode, List.flatMap_cons, Outcome.diagnostics_append,
      Outcome.diagnostics_append, houtcome, hrest]
    rfl

/-- **The prompt fails if and only if some line is no text.** -/
theorem failure_promptLines (s : Session) (lines : List Bytes) :
    (s.promptLines lines).1.failure =
      if ∀ line ∈ lines, (decode? line).isSome then none else some .invalidText := by
  induction lines using lines_induction generalizing s with
  | nil => rfl
  | broken line rest hline =>
    rw [promptLines_of_not_text hline, if_neg]
    · rfl
    · rw [List.forall_mem_cons, hline]
      exact fun h => Bool.false_ne_true h.1
  | text text rest ih =>
    rw [promptLines_encode, Outcome.failure_append, Outcome.failure_append, failure_run, ih]
    simp [Room.deliver, Outcome.ofOutput]

/-- The flag is cleared as soon as a line was run. -/
theorem hadError_promptLines (s : Session) (lines : List Bytes) :
    (s.promptLines lines).2.hadError = if leadingTexts lines = [] then s.hadError else false := by
  induction lines using lines_induction with
  | nil => rfl
  | broken line rest hline =>
    rw [promptLines_of_not_text hline, leadingTexts_of_not_text hline, if_pos rfl]
  | text text rest ih =>
    rw [promptLines_encode, leadingTexts_encode, if_neg (List.cons_ne_nil _ _)]
    exact hadError_promptLines_of_false rfl rest

/-- What is run of a line reports errors of line 1. -/
theorem diagnostics_run_entry {input : Bytes} {text : String}
    (h : encode text ∈ inputLines input) :
    (fresh.run (entry text) .unlimited).1.diagnostics =
      (scan (entry text)).errors.flatMap fun e => encode (diagnostic 1 e.message) := by
  obtain ⟨line, ending, rfl, hline, hending⟩ := exists_line_of_encode h
  have hlines := flatMap_diagnosticBytes hline 1
  rw [lineDiagnostics, List.flatMap_map] at hlines
  rw [(run_of_unlimited rfl _ .unlimited).1, scan_entry hline hending]
  exact hlines

/-- **The prompt on any input**, with room for all diagnostics. The lines
are run up to the first that is no text, each without the end of its line,
as on a new session: the output is the mark and the listing of each, and
then one mark more; the diagnostics are those of the runs in order, and all
name line 1. It fails if a line is no text, and then for that reason; and
the flag is cleared if a line was run, and left alone if none was. -/
theorem prompt_input (flag : Bool) (input : Bytes) :
    let lines := inputLines input
    let texts := leadingTexts lines
    let done := prompt ⟨flag, .unlimited⟩ input
    (∀ cut, Lines input cut ↔ cut = lines) ∧
      (∀ text, EndStripped text (entry text)) ∧
      done.1.output =
        texts.flatMap (fun text =>
          encode promptMark ++ (fresh.run (entry text) .unlimited).1.output) ++
        encode promptMark ∧
      done.1.diagnostics =
        texts.flatMap (fun text => (fresh.run (entry text) .unlimited).1.diagnostics) ∧
      (∀ text ∈ texts, (fresh.run (entry text) .unlimited).1.diagnostics =
        (scan (entry text)).errors.flatMap fun e => encode (diagnostic 1 e.message)) ∧
      done.1.failure =
        (if ∀ line ∈ lines, (decode? line).isSome then none else some .invalidText) ∧
      done.2.hadError = (if texts = [] then flag else false) :=
  ⟨fun _ => lines_iff, endStripped_entry, output_promptLines rfl _, diagnostics_promptLines rfl _,
    fun _ htext => diagnostics_run_entry (encode_mem_of_mem_leadingTexts htext),
    failure_promptLines _ _, hadError_promptLines _ _⟩

/-- A line that is stripped to nothing, one with an error, and one that
ends within a character. -/
example :
    (prompt ⟨true, .unlimited⟩ [13, 13, 10, 64, 10, 195]).1.output =
        encode "> Eof \n> Eof \n> " ∧
      (prompt ⟨true, .unlimited⟩ [13, 13, 10, 64, 10, 195]).1.failure = some .invalidText ∧
      (prompt ⟨true, .unlimited⟩ [13, 13, 10, 64, 10, 195]).2.hadError = false := by
  decide +kernel

end Session

end LoxFront
