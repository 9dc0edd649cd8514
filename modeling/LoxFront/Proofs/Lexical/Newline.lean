import LoxFront.Lexical.Scan
import LoxFront.Proofs.Lexical.Cut
/-!
# Scans across a newline

A newline outside a string ends whatever stands before it, and nothing
before it reaches past it. So a source in two parts with a newline between
them is cut as its parts are (`segments_append_newline`), and its scan is
the scan of the first part and then that of the second, so many lines
further down.
-/

namespace LoxFront

/-! ## Further down -/

/-- A token that many lines further down. -/
def Token.moveDown (lines : Nat) (t : Token) : Token := { t with line := t.line + lines }

/-- An error that many lines further down. -/
def ScanError.moveDown (lines : Nat) : ScanError → ScanError
  | unterminatedString line => unterminatedString (line + lines)
  | unexpectedCharacter line c => unexpectedCharacter (line + lines) c

/-- An event that many lines further down. -/
def ScanEvent.moveDown (lines : Nat) : ScanEvent → ScanEvent
  | token t => token (t.moveDown lines)
  | error e => error (e.moveDown lines)

/-- A segment further down has the same event further down. -/
theorem event?_add (line lines : Nat) (s : Segment) :
    s.event? (line + lines) = (s.event? line).map (ScanEvent.moveDown lines) := by
  rcases s with ⟨_ | _ | _ | _, _⟩ | _ | _ <;> rfl

/-- Segments that start further down have their events there. -/
theorem events_add (line lines : Nat) (segs : List Segment) :
    events (line + lines) segs = (events line segs).map (ScanEvent.moveDown lines) := by
  induction segs generalizing line with
  | nil => rfl
  | cons s rest ih =>
    have hline : line + lines + s.newlines = line + s.newlines + lines := by omega
    rw [events, events, hline, ih, event?_add, List.map_append]
    cases s.event? (line + s.newlines) <;> rfl

/-- What is picked of changed events is what is picked of the events, changed
in its own way. -/
theorem filterMap_map_events {α : Type} {pick : ScanEvent → Option α} {f : ScanEvent → ScanEvent}
    {g : α → α} (h : ∀ e, pick (f e) = (pick e).map g) (es : List ScanEvent) :
    (es.map f).filterMap pick = (es.filterMap pick).map g := by
  rw [List.filterMap_map, List.map_filterMap]
  congr 1
  funext e
  exact h e

theorem filterMap_token_moveDown (lines : Nat) (es : List ScanEvent) :
    (es.map (ScanEvent.moveDown lines)).filterMap ScanEvent.token? =
      (es.filterMap ScanEvent.token?).map (Token.moveDown lines) :=
  filterMap_map_events (by rintro (_ | _) <;> rfl) es

theorem filterMap_error_moveDown (lines : Nat) (es : List ScanEvent) :
    (es.map (ScanEvent.moveDown lines)).filterMap ScanEvent.error? =
      (es.filterMap ScanEvent.error?).map (ScanError.moveDown lines) :=
  filterMap_map_events (by rintro (_ | _) <;> rfl) es

/-! ## Before the newline -/

/-- **A source in two parts is cut as its parts are**, if no string is
open at the newline. -/
theorem segments_append_newline (a b : List Char)
    (h : ∀ text, .openString text ∉ segments a) :
    segments (a ++ '\n' :: b) = segments a ++ .matched .newline ['\n'] :: segments b := by
  revert h
  refine segments_induction
    (motive := fun a segs => (∀ text, .openString text ∉ segs) →
      segments (a ++ '\n' :: b) = segs ++ .matched .newline ['\n'] :: segments b)
    ?nil ?cut a
  case nil =>
    intro _
    exact segments_of_cut .newline
  case cut =>
    intro s after hcut ih hclosed
    have hs : ∀ text, s ≠ .openString text := fun text hs => hclosed text (by simp [hs])
    -- a newline extends nothing, and a point before it gets no digit
    have hgoes : s.Cut (after ++ '\n' :: b) :=
      hcut.append hs (fun _ => rfl) (fun _ => halts_cons.2 rfl)
    rw [List.append_assoc, segments_of_cut hgoes,
      ih fun text hmem => hclosed text (List.mem_cons_of_mem _ hmem), List.cons_append]

/-- An open string is reported, whatever line it is on. -/
theorem exists_unterminated_of_mem {text : List Char} {segs : List Segment} (line : Nat)
    (h : .openString text ∈ segs) :
    ∃ last, .unterminatedString last ∈ (events line segs).filterMap ScanEvent.error? := by
  obtain ⟨before, after, rfl⟩ := List.append_of_mem h
  rw [events_append, events, List.filterMap_append, List.filterMap_append]
  exact ⟨_, List.mem_append_right _ (List.mem_append_left _ (List.mem_singleton.2 rfl))⟩

/-! ## The scan of both parts -/

theorem not_mem_segments_of_closed {a : List Char}
    (h : ∀ line, .unterminatedString line ∉ (scanChars a).errors) :
    ∀ text, .openString text ∉ segments a := by
  intro text hmem
  obtain ⟨last, hlast⟩ := exists_unterminated_of_mem 1 hmem
  exact h last hlast

/-- The line of the second part's end, counted over both. -/
theorem lastLine_append_newline (a b : List Char) :
    (scanChars (a ++ '\n' :: b)).lastLine = (scanChars b).lastLine + (scanChars a).lastLine := by
  rw [lastLine_scanChars, lastLine_scanChars, lastLine_scanChars, List.count_append,
    List.count_cons_self]
  omega

/-- **Behind a newline the events go on** as those of a source of their own,
moved down. -/
theorem events_append_newline (a b : List Char)
    (h : ∀ line, .unterminatedString line ∉ (scanChars a).errors) :
    (scanChars (a ++ '\n' :: b)).events = (scanChars a).events ++
      (scanChars b).events.map (ScanEvent.moveDown (scanChars a).lastLine) := by
  have hsegs := segments_append_newline a b (not_mem_segments_of_closed h)
  have hnewline : events (scanChars a).lastLine (.matched .newline ['\n'] :: segments b) =
      events (1 + (scanChars a).lastLine) (segments b) := by
    rw [Nat.add_comm]
    rfl
  rw [scanChars, hsegs, events_append]
  show _ ++ events (scanChars a).lastLine _ = _
  rw [hnewline, events_add]
  rfl

/-- **Scanning goes part by part at newlines.** Where a text ends without
an open string, the scan of it, a newline and a second text gives the
tokens of the first, less the one at its end, and those of the second, and
so it does with the errors; what is of the second stands further down by
the line the first ends on, and is else unchanged. -/
theorem scan_append_newline (a b : String)
    (h : ∀ line, .unterminatedString line ∉ (scan a).errors) :
    (scan (a ++ "\n" ++ b)).tokens =
        (scan a).tokens.dropLast ++ (scan b).tokens.map (Token.moveDown (scan a).lastLine) ∧
      (scan a).tokens.getLast? = some (.eof (scan a).lastLine) ∧
      (scan (a ++ "\n" ++ b)).errors =
        (scan a).errors ++ (scan b).errors.map (ScanError.moveDown (scan a).lastLine) := by
  have hsource : (a ++ "\n" ++ b).toList = a.toList ++ '\n' :: b.toList := by simp
  have hevents := events_append_newline a.toList b.toList h
  have hline := lastLine_append_newline a.toList b.toList
  simp only [scan, hsource] at *
  refine ⟨?_, ?_, ?_⟩
  · rw [Scan.tokens, Scan.lexed, hevents, hline, List.filterMap_append, filterMap_token_moveDown,
      Scan.tokens, List.dropLast_concat, Scan.tokens, List.map_append, ← List.append_assoc]
    rfl
  · rw [Scan.tokens, List.getLast?_concat]
  · rw [Scan.errors, hevents, List.filterMap_append, filterMap_error_moveDown]
    rfl

/-- The first part ends in a comment that holds a quote, behind a point
and a character outside the alphabet. -/
theorem scan_append_newline_comment :
    (∀ line, .unterminatedString line ∉ (scan "7.@// \"").errors) ∧
      (scan ("7.@// \"" ++ "\n" ++ "5\n#")).tokens =
        [.ofLexeme .number ['7'] 1, .ofLexeme .dot ['.'] 1, .ofLexeme .number ['5'] 2, .eof 3] ∧
      (scan ("7.@// \"" ++ "\n" ++ "5\n#")).errors =
        [.unexpectedCharacter 1 '@', .unexpectedCharacter 3 '#'] := by
  have hstray : (scan "7.@// \"").errors = [.unexpectedCharacter 1 '@'] := by decide +kernel
  have hclosed : ∀ line, .unterminatedString line ∉ (scan "7.@// \"").errors := by simp [hstray]
  obtain ⟨htokens, -, herrors⟩ := scan_append_newline "7.@// \"" "5\n#" hclosed
  refine ⟨hclosed, ?_, ?_⟩
  · rw [htokens]
    decide +kernel
  · rw [herrors]
    decide +kernel

end LoxFront
