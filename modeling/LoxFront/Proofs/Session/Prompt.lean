import Mathlib.Data.List.DropRight
import LoxFront.Proofs.Lexical.Line
import LoxFront.Proofs.Lexical.Newline
import LoxFront.Proofs.Lexical.TrailingReturn
import LoxFront.Proofs.Session.Encoding
import LoxFront.Proofs.Session.Run
import LoxFront.Session.TextLines
/-!
# A text at the prompt

A text can be run as a whole or typed at the prompt, where each of its
lines is a source of its own. The prompt cuts the bytes at the newlines of
the text (`inputLines_encode_cons`), what it strips off a line is nothing
to a scan (`scan_entry`), and where no string is open at the end of a line
the scan of the whole is the scans of the lines, further and further down
(`events_textLines`). So both list the same tokens and report the same
errors, the run with the number of the line and the prompt with line 1.
-/

namespace LoxFront

/-! ## A text line by line -/

/-- A text is its first line and what stands behind its newline, or a line
without one. -/
theorem eq_cutAt_append (text : List Char) :
    text = (cutAt '\n' text).1 ++ '\n' :: (cutAt '\n' text).2 ∨
      text = (cutAt '\n' text).1 ∧ (cutAt '\n' text).2 = [] := by
  have hsplit := List.takeWhile_append_dropWhile (p := (· != '\n')) (l := text)
  have hstop := halts_dropWhile (· != '\n') text
  rw [cutAt]
  generalize text.dropWhile (· != '\n') = behind at hsplit hstop
  cases behind with
  | nil => exact .inr ⟨(List.append_nil _ ▸ hsplit).symm, rfl⟩
  | cons c rest =>
    have hc : c = '\n' := by simpa using hstop
    exact .inl (hc ▸ hsplit.symm)

/-- **Induction along the lines of a text**, from the last to the first. -/
theorem textLines_induction {motive : List Char → List (List Char) → Prop} (nil : motive [] [])
    (last : ∀ line, '\n' ∉ line → line ≠ [] → motive line [line])
    (cons : ∀ line rest, '\n' ∉ line → motive rest (textLines rest) →
      motive (line ++ '\n' :: rest) (line :: textLines rest)) (text : List Char) :
    motive text (textLines text) := by
  fun_induction textLines text with
  | case1 => exact nil
  | case2 c rest ih =>
    have hline : '\n' ∉ (cutAt '\n' (c :: rest)).1 := not_mem_takeWhile_bne _ _
    rcases eq_cutAt_append (c :: rest) with hcut | ⟨hcut, hnil⟩
    · have hmotive := cons _ _ hline ih
      rwa [← hcut] at hmotive
    · rw [hnil, textLines_nil, ← hcut]
      exact last _ (hcut ▸ hline) (List.cons_ne_nil c rest)

/-- No line of a text has a newline in it. -/
theorem newline_not_mem_textLines {text line : List Char} (h : line ∈ textLines text) :
    '\n' ∉ line := by
  revert h
  refine textLines_induction (motive := fun _ lines => line ∈ lines → '\n' ∉ line)
    (fun h => absurd h List.not_mem_nil) ?last ?cons text
  case last =>
    intro only honly _ hmem
    rwa [List.mem_singleton.1 hmem]
  case cons =>
    intro first _ hfirst ih hmem
    rcases List.mem_cons.1 hmem with rfl | hmem
    · exact hfirst
    · exact ih hmem

/-! ## Bytes line by line -/

/-- A line of the input ends at the first newline. -/
theorem inputLines_append {bytes : Bytes} (h : newlineByte ∉ bytes) (rest : Bytes) :
    inputLines (bytes ++ newlineByte :: rest) = (bytes ++ [newlineByte]) :: inputLines rest := by
  induction bytes with
  | nil => rw [List.nil_append, inputLines, if_pos rfl, List.nil_append]
  | cons b bytes ih =>
    rw [List.mem_cons, not_or] at h
    rw [List.cons_append, inputLines, if_neg (Ne.symm h.1), ih h.2]
    rfl

theorem inputLines_of_not_mem {bytes : Bytes} (h : newlineByte ∉ bytes) (hne : bytes ≠ []) :
    inputLines bytes = [bytes] := by
  induction bytes with
  | nil => exact (hne rfl).elim
  | cons b bytes ih =>
    rw [List.mem_cons, not_or] at h
    rw [inputLines, if_neg (Ne.symm h.1)]
    cases bytes with
    | nil => rfl
    | cons c rest => rw [ih h.2 (List.cons_ne_nil c rest)]

/-- A text without a newline has no such byte: the bytes of other characters
are all different from it. -/
theorem newlineByte_not_mem_encode {line : List Char} (h : '\n' ∉ line) :
    newlineByte ∉ encode (.ofList line) := by
  rw [encode_ofList, List.mem_flatMap]
  rintro ⟨c, hc, hbyte⟩
  exact newlineByte_not_mem_encodeChar (ne_of_mem_of_not_mem hc h) hbyte

theorem encode_newline (line rest : List Char) :
    encode (.ofList (line ++ '\n' :: rest)) =
      encode (.ofList line) ++ newlineByte :: encode (.ofList rest) := by
  rw [encode_ofList, encode_ofList, encode_ofList, List.flatMap_append, List.flatMap_cons]
  rfl

/-- The bytes of a line that is not the last are read with the newline's. -/
theorem inputLines_encode_cons {line : List Char} (h : '\n' ∉ line) (rest : List Char) :
    inputLines (encode (.ofList (line ++ '\n' :: rest))) =
      encode (.ofList (line ++ ['\n'])) :: inputLines (encode (.ofList rest)) := by
  rw [encode_newline, inputLines_append (newlineByte_not_mem_encode h), encode_newline]
  rfl

theorem inputLines_encode_last {line : List Char} (h : '\n' ∉ line) (hne : line ≠ []) :
    inputLines (encode (.ofList line)) = [encode (.ofList line)] := by
  refine inputLines_of_not_mem (newlineByte_not_mem_encode h) fun hnil => hne ?_
  have hempty : String.ofList line = "" := encode_injective hnil
  have hchars := congrArg String.toList hempty
  rwa [String.toList_ofList] at hchars

/-! ## A line by itself -/

/-- The bytes a line is listed as, without the entry of the end token. -/
def lineListing (line : List Char) : Bytes := encode (listing (scanChars line).lexed)

/-- The bytes of the entry of the end token. -/
def endEntry : Bytes := encode "Eof \n"

/-- The diagnostics of a line under a number. -/
def lineDiagnostics (number : Nat) (line : List Char) : Bytes :=
  ((scanChars line).errors.map ScanError.message).flatMap fun message =>
    encode (diagnostic number message)

theorem listing_append (ts us : List Token) : listing (ts ++ us) = listing ts ++ listing us := by
  simp [listing, String.join_append]

/-- The listing of a source is that of its tokens and the entry of the end. -/
theorem listingBytes_eq (source : List Char) :
    (scanChars source).listingBytes = lineListing source ++ endEntry := by
  rw [Scan.listingBytes, Scan.tokens, listing_append, encode_append]
  rfl

theorem listing_moveDown (lines : Nat) (ts : List Token) :
    listing (ts.map (Token.moveDown lines)) = listing ts := by
  rw [listing, List.map_map]
  rfl

/-- A listing does not show where the segments start. -/
theorem listing_events (line : Nat) (segs : List Segment) :
    listing ((events line segs).filterMap ScanEvent.token?) =
      listing ((events 0 segs).filterMap ScanEvent.token?) := by
  rw [← Nat.zero_add line, events_add, filterMap_token_moveDown, listing_moveDown]

/-- The message of an error does not depend on its line. -/
theorem message_moveDown (lines : Nat) (e : ScanError) : (e.moveDown lines).message = e.message := by
  cases e <;> rfl

theorem messages_events (line : Nat) (segs : List Segment) :
    ((events line segs).filterMap ScanEvent.error?).map ScanError.message =
      ((events 0 segs).filterMap ScanEvent.error?).map ScanError.message := by
  rw [← Nat.zero_add line, events_add, filterMap_error_moveDown, List.map_map]
  exact List.map_congr_left fun e _ => message_moveDown _ e

/-- All events of a line are on the line it starts on. -/
theorem line_of_mem_events {line : List Char} (h : '\n' ∉ line) {number : Nat} {event : ScanEvent}
    (hevent : event ∈ events number (segments line)) : event.line = number := by
  have hbounds := line_le_of_mem_events hevent
  rw [lastLine_eq, flatMap_text_segments, List.count_eq_zero.2 h] at hbounds
  exact Nat.le_antisymm hbounds.2 hbounds.1

/-- The diagnostics of a line that starts on the line of its number. -/
theorem flatMap_diagnosticBytes {line : List Char} (h : '\n' ∉ line) (number : Nat) :
    ((events number (segments line)).filterMap ScanEvent.error?).flatMap
      ScanError.diagnosticBytes = lineDiagnostics number line := by
  have hmessages : ((events number (segments line)).filterMap ScanEvent.error?).map
      ScanError.message = (scanChars line).errors.map ScanError.message :=
    (messages_events number _).trans (messages_events 1 _).symm
  have hlines : ∀ e ∈ (events number (segments line)).filterMap ScanEvent.error?,
      e.diagnosticBytes = encode (diagnostic number e.message) := by
    intro e he
    obtain ⟨event, hevent, herror⟩ := List.mem_filterMap.1 he
    have hline := line_of_mem_events h hevent
    cases event <;> cases herror
    rw [ScanError.diagnosticBytes, ← hline]
    rfl
  rw [List.flatMap_congr hlines, lineDiagnostics, ← hmessages, List.flatMap_map]

/-! ## A line at the prompt -/

/-- A character that is stripped off the end of a line. -/
def isLineEnd (c : Char) : Bool := c == '\n' || c == '\r'

theorem entry_ofList (text : List Char) :
    entry (.ofList text) = .ofList (text.rdropWhile isLineEnd) := by
  rw [entry, String.toList_ofList]
  rfl

/-- What is stripped off a line without its newline is carriage returns,
and those are nothing to a scan. -/
theorem scanChars_rdropWhile {line : List Char} (h : '\n' ∉ line) :
    scanChars (line.rdropWhile isLineEnd) = scanChars line := by
  have hreturns : ∀ c ∈ line.rtakeWhile isLineEnd, c = '\r' := by
    intro c hc
    have hend := List.mem_rtakeWhile_imp hc
    have hne : c ≠ '\n' := ne_of_mem_of_not_mem ((List.rtakeWhile_suffix isLineEnd line).subset hc) h
    simpa [isLineEnd, hne] using hend
  have hsame := scanChars_append_returns (line.rdropWhile isLineEnd) hreturns
  rw [List.rdropWhile_append_rtakeWhile] at hsame
  exact hsame.symm

/-- **A line is scanned as it stands in the text**, whatever it ends in. -/
theorem scan_entry {line ending : List Char} (h : '\n' ∉ line)
    (hending : ending = [] ∨ ending = ['\n']) :
    scan (entry (.ofList (line ++ ending))) = scanChars line := by
  rw [entry_ofList, scan, String.toList_ofList, ← scanChars_rdropWhile h]
  rcases hending with rfl | rfl
  · rw [List.append_nil]
  · rw [List.rdropWhile_concat_pos]
    rfl

namespace Session

variable {s : Session}

/-- A line of text that is entered is run, and leaves no flag. -/
theorem enter_encode (s : Session) (text : String) :
    s.enter (encode text) =
      ((s.run (entry text) .unlimited).1, ⟨false, (s.run (entry text) .unlimited).2.room⟩) := by
  rw [enter, decode?_encode]

/-- **A line that is entered** is listed with its end token, its errors are
on line 1, and the session is as if nothing had happened. -/
theorem enter_line (hroom : s.room = .unlimited) {line ending : List Char} (h : '\n' ∉ line)
    (hending : ending = [] ∨ ending = ['\n']) {done : Outcome × Session}
    (hdone : s.enter (encode (.ofList (line ++ ending))) = done) :
    done.1.output = lineListing line ++ endEntry ∧
      done.1.diagnostics = lineDiagnostics 1 line ∧ done.1.failure = none ∧ done.2 = fresh := by
  obtain ⟨hdiagnostics, hlast⟩ :=
    run_of_unlimited hroom (entry (.ofList (line ++ ending))) .unlimited
  rw [enter_encode] at hdone
  rw [← hdone]
  refine ⟨?_, ?_, failure_run s _ .unlimited, ?_⟩
  · rw [output_run_unlimited, scan_entry h hending, listingBytes_eq]
  · rw [hdiagnostics, scan_entry h hending]
    exact flatMap_diagnosticBytes h 1
  · rw [hlast]
    rfl

/-- The prompt goes on behind a line that did not fail. -/
theorem promptLines_cons {line : Bytes} (h : (s.enter line).1.failure = none)
    (rest : List Bytes) :
    s.promptLines (line :: rest) =
      (.ofOutput (encode promptMark) ++ (s.enter line).1 ++ ((s.enter line).2.promptLines rest).1,
        ((s.enter line).2.promptLines rest).2) := by
  have hshown : (Outcome.ofOutput (encode promptMark) ++ (s.enter line).1).failure = none := by
    rw [Outcome.failure_append, h]
    rfl
  rw [promptLines]
  simp only [hshown]
  rfl

/-- **What a prompt does that goes through these lines.** -/
structure Prompted (lines : List (List Char)) (done : Outcome × Session) : Prop where
  output : done.1.output =
    lines.flatMap (fun line => encode promptMark ++ lineListing line ++ endEntry) ++
      encode promptMark
  diagnostics : done.1.diagnostics = lines.flatMap (lineDiagnostics 1)
  failure : done.1.failure = none
  last : done.2 = fresh

theorem prompted_nil : Prompted [] (fresh.promptLines []) := ⟨rfl, rfl, rfl, rfl⟩

/-- **One more line in front** adds its mark, its listing and its diagnostics. -/
theorem Prompted.cons {line ending : List Char} {lines : List (List Char)} {rest : List Bytes}
    (hrest : Prompted lines (fresh.promptLines rest)) (h : '\n' ∉ line)
    (hending : ending = [] ∨ ending = ['\n']) :
    Prompted (line :: lines) (fresh.promptLines (encode (.ofList (line ++ ending)) :: rest)) := by
  obtain ⟨houtput, hdiagnostics, hfailure, hlast⟩ := enter_line (s := fresh) rfl h hending rfl
  rw [promptLines_cons hfailure, hlast]
  refine ⟨?_, ?_, ?_, hrest.last⟩
  · rw [Outcome.output_append, Outcome.output_append, houtput, hrest.output, List.flatMap_cons,
      ← List.append_assoc, ← List.append_assoc]
    rfl
  · rw [Outcome.diagnostics_append, Outcome.diagnostics_append, hdiagnostics, hrest.diagnostics,
      List.flatMap_cons]
    rfl
  · rw [Outcome.failure_append, Outcome.failure_append, hfailure, hrest.failure]
    rfl

/-- **The prompt goes through the lines of a text.** -/
theorem prompted_textLines (text : List Char) :
    Prompted (textLines text) (fresh.prompt (encode (.ofList text))) := by
  refine textLines_induction (motive := fun text lines =>
    Prompted lines (fresh.prompt (encode (.ofList text)))) prompted_nil ?last ?cons text
  case last =>
    intro line hline hne
    have hdone := prompted_nil.cons hline (.inl rfl)
    rwa [List.append_nil, ← inputLines_encode_last hline hne] at hdone
  case cons =>
    intro line rest hline ih
    have hdone := Prompted.cons ih hline (.inr rfl)
    rwa [← inputLines_encode_cons hline] at hdone

end Session

/-! ## The scan of the whole -/

/-- **The events of a text are those of its lines**, each line cut for
itself and starting on the line of its number. -/
theorem events_textLines (first : Nat) (text : List Char)
    (h : ∀ line ∈ textLines text, ∀ body, .openString body ∉ segments line) :
    events first (segments text) =
      ((textLines text).zipIdx first).flatMap fun p => events p.2 (segments p.1) := by
  revert first h
  refine textLines_induction (motive := fun text lines => ∀ first,
    (∀ line ∈ lines, ∀ body, .openString body ∉ segments line) →
      events first (segments text) =
        (lines.zipIdx first).flatMap fun p => events p.2 (segments p.1)) ?nil ?last ?cons text
  case nil =>
    intro first _
    rw [segments_nil]
    rfl
  case last =>
    intro line _ _ first _
    exact (List.append_nil _).symm
  case cons =>
    intro line rest hline ih first hclosed
    rw [List.forall_mem_cons] at hclosed
    have hlast : lastLine first (segments line) = first := by
      rw [lastLine_eq, flatMap_text_segments, List.count_eq_zero.2 hline]
      rfl
    rw [segments_append_newline line rest hclosed.1, events_append, hlast, List.zipIdx_cons,
      List.flatMap_cons, ← ih (first + 1) hclosed.2]
    rfl

/-- What is the same for a line on every number needs no numbers. -/
theorem flatMap_zipIdx {α : Type} (f : List Char → List α) (first : Nat)
    (lines : List (List Char)) :
    (lines.zipIdx first).flatMap (fun p => f p.1) = lines.flatMap f := by
  rw [← List.flatMap_map Prod.fst f, List.zipIdx_map_fst]

theorem listing_flatMap {α : Type} (f : α → List Token) (xs : List α) :
    encode (listing (xs.flatMap f)) = xs.flatMap fun x => encode (listing (f x)) := by
  induction xs with
  | nil => rfl
  | cons x xs ih => rw [List.flatMap_cons, listing_append, encode_append, ih, List.flatMap_cons]

variable {text : List Char}
  (h : ∀ line ∈ textLines text, ∀ body, .openString body ∉ segments line)

include h

/-- A text is listed as its lines are. -/
theorem lineListing_textLines : lineListing text = (textLines text).flatMap lineListing := by
  rw [lineListing, Scan.lexed, scanChars, events_textLines 1 text h, List.filterMap_flatMap,
    listing_flatMap, ← flatMap_zipIdx lineListing 1]
  refine List.flatMap_congr fun p _ => ?_
  rw [lineListing, listing_events, ← listing_events 1]
  rfl

/-- A text has the errors of its lines. -/
theorem errors_textLines :
    (scanChars text).errors = ((textLines text).zipIdx 1).flatMap fun p =>
      (events p.2 (segments p.1)).filterMap ScanEvent.error? := by
  rw [Scan.errors, scanChars, events_textLines 1 text h, List.filterMap_flatMap]

/-- A text has an error exactly when a line of it has one. -/
theorem errors_ne_nil_iff :
    (scanChars text).errors ≠ [] ↔ ∃ line ∈ textLines text, (scanChars line).errors ≠ [] := by
  have hmessages : (scanChars text).errors.map ScanError.message =
      (textLines text).flatMap fun line => (scanChars line).errors.map ScanError.message := by
    rw [errors_textLines h, List.map_flatMap, ← flatMap_zipIdx _ 1]
    refine List.flatMap_congr fun p _ => ?_
    rw [messages_events, ← messages_events 1]
    rfl
  rw [ne_eq, ← List.map_eq_nil_iff (f := ScanError.message), hmessages, List.flatMap_eq_nil_iff]
  simp only [List.map_eq_nil_iff, not_forall, exists_prop, ne_eq]

theorem diagnostics_textLines :
    (scanChars text).errors.flatMap ScanError.diagnosticBytes =
      ((textLines text).zipIdx 1).flatMap fun p => lineDiagnostics p.2 p.1 := by
  rw [errors_textLines h, List.flatMap_assoc]
  refine List.flatMap_congr fun p hp => ?_
  exact flatMap_diagnosticBytes (newline_not_mem_textLines (List.fst_mem_of_mem_zipIdx hp)) p.2

omit h

/-- **A text at the prompt and the same text run as a whole agree line by
line**, where no line by itself has a string left open. Each line is listed
alike, at the prompt behind the mark and with an entry of the end token,
in a run with one such entry for all lines. The diagnostics are the same
in the same order, only that the prompt has every line as line 1. Nothing
fails; the prompt forgets the errors, and the run remembers them. -/
theorem prompt_agrees_with_run (text : String)
    (h : ∀ line ∈ textLines text.toList, ∀ number,
      .unterminatedString number ∉ (scanChars line).errors) :
    let lines := textLines text.toList
    let prompted := Session.fresh.prompt (encode text)
    let ran := Session.fresh.run text .unlimited
    prompted.1.output =
        lines.flatMap (fun line => encode promptMark ++ lineListing line ++ endEntry) ++
          encode promptMark ∧
      ran.1.output = lines.flatMap lineListing ++ endEntry ∧
      prompted.1.diagnostics = lines.flatMap (lineDiagnostics 1) ∧
      ran.1.diagnostics = (lines.zipIdx 1).flatMap (fun p => lineDiagnostics p.2 p.1) ∧
      prompted.1.failure = none ∧ ran.1.failure = none ∧
      prompted.2.hadError = false ∧
      (ran.2.hadError = true ↔ ∃ line ∈ lines, (scanChars line).errors ≠ []) := by
  have hclosed : ∀ line ∈ textLines text.toList, ∀ body, .openString body ∉ segments line :=
    fun line hline => not_mem_segments_of_closed (h line hline)
  have hprompted := Session.prompted_textLines text.toList
  rw [String.ofList_toList] at hprompted
  have hdiagnostics := (Session.run_of_unlimited (s := .fresh) rfl text .unlimited).1
  have hflag := Session.hadError_run .fresh text .unlimited
  refine ⟨hprompted.output, ?_, hprompted.diagnostics, ?_, hprompted.failure,
    Session.failure_run .fresh text .unlimited, ?_, ?_⟩
  · rw [Session.output_run_unlimited, scan, listingBytes_eq, lineListing_textLines hclosed]
  · rw [hdiagnostics, scan, diagnostics_textLines hclosed]
  · rw [hprompted.last]
    rfl
  · rw [hflag, scan, errors_ne_nil_iff hclosed]
    exact or_iff_right Bool.false_ne_true

/-- Lines that end in carriage returns, an empty one, a quote in a comment,
and a stray character on a last line without a newline. -/
theorem prompt_agrees_with_run_returns :
    (∀ line ∈ textLines "a\r\n\n// \"\r\r\n@1.".toList, ∀ number,
        .unterminatedString number ∉ (scanChars line).errors) ∧
      (Session.fresh.prompt (encode "a\r\n\n// \"\r\r\n@1.")).1.output =
        encode "> Identifier a\nEof \n> Eof \n> Eof \n> Number 1 1\nDot .\nEof \n> " ∧
      (Session.fresh.run "a\r\n\n// \"\r\r\n@1." .unlimited).1.output =
        encode "Identifier a\nNumber 1 1\nDot .\nEof \n" ∧
      (Session.fresh.prompt (encode "a\r\n\n// \"\r\r\n@1.")).1.diagnostics =
        encode "[line 1] Error: Unexpected character\n" ∧
      (Session.fresh.run "a\r\n\n// \"\r\r\n@1." .unlimited).1.diagnostics =
        encode "[line 4] Error: Unexpected character\n" := by
  have hlines : textLines "a\r\n\n// \"\r\r\n@1.".toList =
      [['a', '\r'], [], ['/', '/', ' ', '"', '\r', '\r'], ['@', '1', '.']] := by decide +kernel
  have herrors : ∀ line ∈ textLines "a\r\n\n// \"\r\r\n@1.".toList,
      (scanChars line).errors = [] ∨ (scanChars line).errors = [.unexpectedCharacter 1 '@'] := by
    rw [hlines]
    decide +kernel
  have hclosed : ∀ line ∈ textLines "a\r\n\n// \"\r\r\n@1.".toList, ∀ number,
      .unterminatedString number ∉ (scanChars line).errors := by
    intro line hline number
    rcases herrors line hline with h | h <;> simp [h]
  obtain ⟨hprompted, hran, hshown, hreported, -⟩ := prompt_agrees_with_run _ hclosed
  refine ⟨hclosed, ?_, ?_, ?_, ?_⟩
  · rw [hprompted, hlines]
    decide +kernel
  · rw [hran, hlines]
    decide +kernel
  · rw [hshown, hlines]
    decide +kernel
  · rw [hreported, hlines]
    decide +kernel

end LoxFront
