import LoxFront.Proofs.Command.Folder
import LoxFront.Proofs.Session.Input
import LoxFront.Proofs.Session.Limit
import LoxFront.Proofs.Session.Utf8
/-!
# A file is run whole or not at all

A file is read as text before any of it is run. So bytes that are not well
formed keep a whole file from being run, wherever the fault is and whatever
stands before it, and nothing but the failure comes of it (`NotRun`). The
prompt reads line by line, and on the same bytes it has run the lines
before the fault when it comes upon it (`output_prompt_lineBytes`).
-/

namespace LoxFront

/-! ## Lines in front of other bytes -/

/-- The bytes of lines of text, each with its newline. -/
def lineBytes (lines : List String) : Bytes := lines.flatMap fun line => encode (line ++ "\n")

/-- Lines in front of other bytes are taken one by one. -/
theorem lineBytes_cons_append (line : String) (lines : List String) (rest : Bytes) :
    lineBytes (line :: lines) ++ rest = encode (line ++ "\n") ++ (lineBytes lines ++ rest) := by
  rw [lineBytes, List.flatMap_cons, List.append_assoc]
  rfl

/-- Lines of text make no fault and mend none: the bytes behind them decide. -/
theorem wellFormed_lineBytes_append {lines : List String} {rest : Bytes} :
    WellFormed (lineBytes lines ++ rest) ↔ WellFormed rest := by
  induction lines with
  | nil => rfl
  | cons line lines ih => rw [lineBytes_cons_append, wellFormed_encode_append, ih]

/-- A line of text in front is read first, up to its newline. -/
theorem inputLines_line_append {line : String} (h : '\n' ∉ line.toList) (rest : Bytes) :
    inputLines (encode (line ++ "\n") ++ rest) = encode (line ++ "\n") :: inputLines rest := by
  have hnewline : encode (line ++ "\n") = encode line ++ [newlineByte] := encode_append line "\n"
  have hline : newlineByte ∉ encode line := by
    rw [← String.ofList_toList (s := line)]
    exact newlineByte_not_mem_encode h
  rw [hnewline, List.append_assoc, List.singleton_append, inputLines_append hline]

/-- The lines that are read are the texts, up to bytes that are none. -/
theorem leadingTexts_lineBytes {lines : List String} (h : ∀ line ∈ lines, '\n' ∉ line.toList)
    (rest : Bytes) :
    leadingTexts (inputLines (lineBytes lines ++ rest)) =
      lines.map (· ++ "\n") ++ leadingTexts (inputLines rest) := by
  induction lines with
  | nil => rfl
  | cons line lines ih =>
    rw [List.forall_mem_cons] at h
    rw [lineBytes_cons_append, inputLines_line_append h.1, leadingTexts_encode, ih h.2]
    rfl

/-- The newline of a line is stripped before the line is run. -/
theorem scan_entry_newline {line : String} (h : '\n' ∉ line.toList) :
    scan (entry (line ++ "\n")) = scan line := by
  have hline : String.ofList (line.toList ++ ['\n']) = line ++ "\n" := by
    rw [← String.toList_inj, String.toList_ofList, String.toList_append]
    rfl
  rw [← hline, scan_entry h (.inr rfl), scan]

namespace Session

/-! ## The prompt on bytes that are no text -/

/-- **The prompt fails on bytes that are not well formed**, wherever the fault
is. -/
theorem failure_prompt_of_not_wellFormed {input : Bytes} (h : ¬WellFormed input) (s : Session) :
    (s.prompt input).1.failure = some .invalidText := by
  rw [prompt, failure_promptLines, if_neg]
  intro hlines
  refine h (flatten_inputLines input ▸ wellFormed_flatten fun line hline => ?_)
  obtain ⟨text, htext⟩ := Option.isSome_iff_exists.1 (hlines line hline)
  exact wellFormed_iff.2 ⟨text, decode?_eq_some_iff.1 htext⟩

/-- **The prompt has listed the lines in front**, whatever it comes upon
behind them. -/
theorem output_prompt_lineBytes {lines : List String} (h : ∀ line ∈ lines, '\n' ∉ line.toList)
    (rest : Bytes) (s : Session) :
    lines.flatMap (fun line => encode promptMark ++ (scan line).listingBytes) <+:
      (s.prompt (lineBytes lines ++ rest)).1.output := by
  have hflag : s.hadError = (⟨s.hadError, .unlimited⟩ : Session).hadError := rfl
  have hroom := result_promptLines hflag (inputLines (lineBytes lines ++ rest))
  have houtput := congrArg Prod.fst hroom
  simp only [result] at houtput
  rw [prompt, houtput, output_promptLines rfl, leadingTexts_lineBytes h, List.flatMap_append,
    List.append_assoc, List.flatMap_map]
  have hlisted : ∀ line ∈ lines,
      encode promptMark ++ (fresh.run (entry (line ++ "\n")) .unlimited).1.output =
        encode promptMark ++ (scan line).listingBytes := by
    intro line hline
    rw [output_run_unlimited, scan_entry_newline (h line hline)]
  rw [List.flatMap_congr hlisted]
  exact List.prefix_append _ _

/-! ## Files -/

/-- **A file was not run**: all that came of it is the failure, and that it
was about to be run. -/
structure NotRun (s : Session) (path : String) (failure : Failure) (done : Outcome × Session) :
    Prop where
  output : done.1.output = []
  diagnostics : done.1.diagnostics = []
  log : done.1.log = [.running path]
  failure : done.1.failure = some failure
  last : done.2 = s

/-- What cannot be read is not run. -/
theorem notRun_of_error (s : Session) (path : String) (failure : Failure) (out : Room) :
    NotRun s path failure (s.runFile path (.error failure) out) := ⟨rfl, rfl, rfl, rfl, rfl⟩

/-- A file of bytes that are no text is not run. -/
theorem notRun_of_not_wellFormed {bytes : Bytes} (h : ¬WellFormed bytes) (s : Session)
    (path : String) (out : Room) :
    NotRun s path .invalidText (s.runFile path (.ok bytes) out) := by
  have hfails : s.runFile path (.ok bytes) out =
      (.ofLog (.running path) ++ .ofFailure .invalidText, s) := by
    simp only [runFile, decode?_eq_none_iff.2 h]
  rw [hfails]
  exact ⟨rfl, rfl, rfl, rfl, rfl⟩

/-- **A file is run whole or not at all**, on any session and with any
room for its output. Well-formed bytes are those of a text, and a file of
these does what a run of the text does, with one entry of the log in front.
What cannot be read, and bytes that are not well formed, leave nothing but
the failure; so it is with the empty path, with the names of a folder that
no file has, and with directories. It is so with any lines of text in front
of the fault; the prompt fails on the same bytes too, but by then it has
listed these lines. -/
theorem runFile_whole_or_notRun (s : Session) (path : String) (out : Room) :
    (∀ bytes, WellFormed bytes ↔ ∃ source, bytes = encode source) ∧
      (∀ source,
        let done := s.runFile path (.ok (encode source)) out
        let ran := s.run source out
        done.1.output = ran.1.output ∧ done.1.diagnostics = ran.1.diagnostics ∧
          done.1.failure = ran.1.failure ∧ done.2 = ran.2 ∧
          done.1.log = .running path :: ran.1.log) ∧
      (∀ failure, NotRun s path failure (s.runFile path (.error failure) out)) ∧
      (∀ bytes, ¬WellFormed bytes →
        NotRun s path .invalidText (s.runFile path (.ok bytes) out)) ∧
      (∀ folder : Folder,
        (∀ bytes, Folder.IsName path → folder.content? path = some bytes →
          folder.read path = .ok bytes) ∧
        (path = "" → NotRun s path .missing (s.runFile path (folder.read path) out)) ∧
        (Folder.IsName path → folder.content? path = none →
          NotRun s path .missing (s.runFile path (folder.read path) out)) ∧
        (Folder.IsDirectory path →
          NotRun s path .directory (s.runFile path (folder.read path) out))) ∧
      ∀ lines rest, (∀ line ∈ lines, '\n' ∉ line.toList) → ¬WellFormed rest →
        let bytes := lineBytes lines ++ rest
        NotRun s path .invalidText (s.runFile path (.ok bytes) out) ∧
          (s.prompt bytes).1.failure = some .invalidText ∧
          lines.flatMap (fun line => encode promptMark ++ (scan line).listingBytes) <+:
            (s.prompt bytes).1.output := by
  refine ⟨fun _ => wellFormed_iff, fun source => ?text,
    fun failure => notRun_of_error s path failure out,
    fun _ h => notRun_of_not_wellFormed h s path out,
    fun folder => ⟨fun bytes hname hcontent => ?file, fun hempty => ?empty,
      fun hname hcontent => ?missing, fun hdirectory => ?directory⟩,
    fun lines rest hlines hrest => ?lines⟩
  case text =>
    have htext : (Except.ok (encode source) : Except Failure Bytes).toOption.bind decode? =
        some source := decode?_encode source
    rw [runFile_of_text htext]
    exact ⟨rfl, rfl, rfl, rfl, rfl⟩
  case file =>
    rw [Folder.read_of_isName hname, hcontent]
    rfl
  case empty =>
    rw [hempty, Folder.read_empty]
    exact notRun_of_error s "" .missing out
  case missing =>
    rw [Folder.read_of_isName hname, hcontent]
    exact notRun_of_error s path .missing out
  case directory =>
    rw [Folder.read_of_isDirectory hdirectory]
    exact notRun_of_error s path .directory out
  case lines =>
    have hbytes : ¬WellFormed (lineBytes lines ++ rest) :=
      fun h => hrest (wellFormed_lineBytes_append.1 h)
    exact ⟨notRun_of_not_wellFormed hbytes s path out, failure_prompt_of_not_wellFormed hbytes s,
      output_prompt_lineBytes hlines rest s⟩

/-- A character written too long, a surrogate, and one cut off behind a line
with an error: no diagnostic is written, and the flag stays as it was. -/
example :
    [[192, 128], [237, 160, 128], [64, 10, 226, 130]].map (fun bytes =>
        let done := runFile ⟨false, .unlimited⟩ "script.lox" (.ok bytes) .unlimited
        (done.1.diagnostics, done.1.failure, done.2.hadError)) =
      List.replicate 3 ([], some .invalidText, false) := by
  decide +kernel

end Session

end LoxFront
