import LoxFront.Lexical.Cursor
import LoxFront.Proofs.Lexical.Lexeme
/-!
# Lines

Lines are counted in two places, at the end of a line and inside a string,
and a scan reads newlines in no others (`counted_of_cut`). So wherever its
cursor stands, the line is 1 plus the newlines before it, on the way over
errors too, and a token has the line of the cursor behind it. That is the
line it starts on unless it is a string, the one kind of token with a
newline in it.

The cursor does what `scan` does: it comes to the end of the source
(`Cursor.Reached.exists_end`), and what it has found there is what the scan
finds (`Cursor.Reached.scanChars_eq`), each event in a step of its own
(`Cursor.Reached.exists_step`).
-/

namespace LoxFront

/-! ## Where a segment has newlines -/

/-- The characters that stand between tokens. -/
def whitespace : List Char := " \t\r\n".toList

/-- A class of characters without whitespace has texts without any. -/
theorem not_mem_of_forall {p : Char → Bool} (hp : whitespace.any p = false) {text : List Char}
    (h : ∀ c ∈ text, p c = true) : ∀ b ∈ whitespace, b ∉ text :=
  fun b hb hmem => List.any_eq_false.1 hp b hb (h b hmem)

theorem whitespace_not_mem_isWord {text : List Char} (h : IsWord text) :
    ∀ b ∈ whitespace, b ∉ text := by
  cases text with
  | nil => exact h.elim
  | cons c rest =>
    have hstart : isWordPart c = true := by simp [isWordPart, h.1]
    exact not_mem_of_forall (by decide) (List.forall_mem_cons.2 ⟨hstart, h.2⟩)

/-- **No token but a string has whitespace in it.** -/
theorem whitespace_not_mem_of_cut {kind : TokenKind} {text after : List Char}
    (h : (Segment.matched (.token kind) text).Cut after) (hkind : kind ≠ .string) :
    ∀ b ∈ whitespace, b ∉ text := by
  cases h with
  | mark hmark =>
    exact not_mem_of_forall (p := fun c => (markKind? c).isSome) (by decide) (by simp [hmark])
  | alone hkinds =>
    exact not_mem_of_forall (p := fun c => (operatorKinds? c).isSome) (by decide)
      (by simp [hkinds])
  | extended hkinds =>
    -- the sign is an operator's start too
    exact not_mem_of_forall (p := fun c => (operatorKinds? c).isSome) (by decide)
      (List.forall_mem_cons.2 ⟨by rw [hkinds]; rfl, List.forall_mem_singleton.2 rfl⟩)
  | slash => exact not_mem_of_forall (p := (· == '/')) (by decide) (by simp)
  | string => exact (hkind rfl).elim
  | whole hdigits => exact not_mem_of_forall (by decide) hdigits.2
  | decimal hwhole hfraction =>
    intro b hb
    rw [List.mem_append, List.mem_cons, not_or, not_or]
    have hpoint : b ≠ '.' := ne_of_mem_of_not_mem hb (by decide)
    exact ⟨not_mem_of_forall (by decide) hwhole.2 b hb, hpoint,
      not_mem_of_forall (by decide) hfraction.2 b hb⟩
  | word hword => exact whitespace_not_mem_isWord hword

theorem newline_not_mem_of_cut {kind : TokenKind} {text after : List Char}
    (h : (Segment.matched (.token kind) text).Cut after) (hkind : kind ≠ .string) :
    '\n' ∉ text :=
  whitespace_not_mem_of_cut h hkind '\n' (by decide)

theorem counted_token {kind : TokenKind} (text : List Char) (hkind : kind ≠ .string) :
    (Segment.matched (.token kind) text).counted = 0 := by
  cases kind with
  | string => exact (hkind rfl).elim
  | _ => rfl

/-- **The newlines counted are all there are.** A comment ends before its
newline, and a blank and a stray character are other characters. -/
theorem counted_of_cut {s : Segment} {after : List Char} (h : s.Cut after) :
    s.counted = s.newlines := by
  rcases s with ⟨kind | _ | _ | _, text⟩ | text | c
  case matched.token =>
    by_cases hkind : kind = .string
    · rw [hkind]
      rfl
    · rw [counted_token text hkind]
      exact (List.count_eq_zero.2 (newline_not_mem_of_cut h hkind)).symm
  case matched.blank =>
    cases h with
    | @blank c _ hc =>
      have hne : '\n' ∉ [c] := by
        rw [List.mem_singleton]
        rintro rfl
        exact absurd hc (by decide)
      exact (List.count_eq_zero.2 hne).symm
  case matched.newline =>
    cases h with
    | newline => rfl
  case matched.comment =>
    cases h with
    | @comment body _ hbody =>
      have hne : '\n' ∉ '/' :: '/' :: body := by simpa using hbody
      exact (List.count_eq_zero.2 hne).symm
  case openString => rfl
  case stray =>
    cases h with
    | stray hc =>
      have hne : '\n' ∉ [c] := by
        rw [List.mem_singleton]
        rintro rfl
        exact absurd hc (by decide)
      exact (List.count_eq_zero.2 hne).symm

/-! ## What a step does -/

namespace Cursor

variable {source : List Char} {c d : Cursor}

/-- **A step reads one segment**: it puts its text behind what was read,
moves the line on by its newlines, and its event stands on the new line. -/
theorem exists_cut_of_next? (h : c.next? = some d) :
    ∃ s : Segment, s.Cut d.left ∧ c.left = s.text ++ d.left ∧ d.read = c.read ++ s.text ∧
      d.line = c.line + s.newlines ∧ d.found = c.found ++ (s.event? d.line).toList := by
  unfold next? at h
  split at h
  · cases h
  · next e rest hleft =>
    have hcut := Segment.cut_first e rest
    have hsource := Segment.text_first_append e rest
    generalize Segment.first e rest = cut at h hcut hsource
    obtain ⟨s, after⟩ := cut
    rw [← Option.some.inj h]
    exact ⟨s, hcut, hleft.trans hsource.symm, rfl, congrArg (c.line + ·) (counted_of_cut hcut), rfl⟩

/-- There is a step wherever something is left. -/
theorem exists_next? (h : c.left ≠ []) : ∃ d, c.next? = some d := by
  obtain ⟨e, rest, hleft⟩ := List.exists_cons_of_ne_nil h
  unfold next?
  rw [hleft]
  exact ⟨_, rfl⟩

/-- A step leaves less than there was. -/
theorem length_left_lt (h : c.next? = some d) : d.left.length < c.left.length := by
  obtain ⟨s, hcut, hleft, -⟩ := exists_cut_of_next? h
  have hpos := List.length_pos_iff.2 hcut.text_ne_nil
  rw [hleft, List.length_append]
  omega

/-! ## Wherever the cursor stands -/

/-- What was read and what is left are the source. -/
theorem Reached.read_append_left (h : Reached source c) : c.read ++ c.left = source := by
  induction h with
  | start => rfl
  | next _ hstep ih =>
    obtain ⟨s, -, hleft, hread, -⟩ := exists_cut_of_next? hstep
    rw [hread, List.append_assoc, ← hleft, ih]

/-- **The line is 1 plus the newlines read.** -/
theorem Reached.line_eq (h : Reached source c) : c.line = 1 + c.read.count '\n' := by
  induction h with
  | start => rfl
  | next _ hstep ih =>
    obtain ⟨s, -, -, hread, hline, -⟩ := exists_cut_of_next? hstep
    rw [hline, ih, hread, List.count_append, Segment.newlines, Nat.add_assoc]

/-- What was found and what is still to be found are the events of the
scan. -/
theorem Reached.events_eq (h : Reached source c) :
    c.found ++ events c.line (segments c.left) = (scanChars source).events := by
  induction h with
  | start => rfl
  | next _ hstep ih =>
    obtain ⟨s, hcut, hleft, -, hline, hfound⟩ := exists_cut_of_next? hstep
    rw [← ih, hleft, segments_of_cut hcut, events, hfound, hline, List.append_assoc]

/-- From wherever the cursor stands it comes to the end. -/
theorem Reached.exists_end {source : List Char} {c : Cursor} (h : Reached source c) :
    ∃ d, Reached source d ∧ d.left = [] := by
  by_cases hleft : c.left = []
  · exact ⟨c, h, hleft⟩
  · obtain ⟨d, hstep⟩ := exists_next? hleft
    have hd := length_left_lt hstep
    exact (h.next hstep).exists_end
termination_by c.left.length

/-- At the end the cursor has found what the scan finds, and stands on its
last line. -/
theorem Reached.scanChars_eq (h : Reached source c) (hend : c.left = []) :
    scanChars source = ⟨c.found, c.line⟩ := by
  have hevents := h.events_eq
  have hread := h.read_append_left
  rw [hend, segments_nil, events, List.append_nil] at hevents
  rw [hend, List.append_nil] at hread
  have hlast : (scanChars source).lastLine = c.line := by
    rw [lastLine_scanChars, h.line_eq, hread]
  rw [hevents, ← hlast]

/-- **Each event was found in a step of its own**, when all before it was
found and nothing behind it. -/
theorem Reached.exists_step {before after : List ScanEvent} {event : ScanEvent}
    (h : Reached source c) (hfound : c.found = before ++ event :: after) :
    ∃ a b, Reached source a ∧ a.found = before ∧ a.next? = some b ∧
      b.found = before ++ [event] := by
  induction h generalizing after with
  | start => simp [Cursor.start] at hfound
  | @next c d hc hstep ih =>
    obtain ⟨s, -, -, -, -, hadded⟩ := exists_cut_of_next? hstep
    cases hevent : s.event? d.line with
    | none =>
      rw [hevent, Option.toList_none, List.append_nil] at hadded
      exact ih (hadded ▸ hfound)
    | some last =>
      rw [hevent, Option.toList_some] at hadded
      -- the event is the one just found, or an older one
      rcases List.eq_nil_or_concat after with rfl | ⟨earlier, e, rfl⟩
      · obtain ⟨hbefore, -⟩ := List.append_inj' (hadded.symm.trans hfound) rfl
        exact ⟨c, d, hc, hbefore, hstep, hfound⟩
      · have hlast : c.found ++ [last] = (before ++ event :: earlier) ++ [e] := by
          simpa using hadded.symm.trans hfound
        exact ih (List.append_inj' hlast rfl).1

/-! ## Tokens in steps -/

/-- A step that reads a token: the token's text is what it reads, and its
line is the one it comes to. -/
theorem exists_token_of_next? {t : Token} (h : c.next? = some d)
    (ht : d.found = c.found ++ [.token t]) :
    d.read = c.read ++ t.lexeme.toList ∧ t.line = d.line ∧
      (Segment.matched (.token t.kind) t.lexeme.toList).Cut d.left ∧
      d.line = c.line + t.lexeme.toList.count '\n' := by
  obtain ⟨s, hcut, -, hread, hline, hfound⟩ := exists_cut_of_next? h
  have hevent : (s.event? d.line).toList = [.token t] :=
    List.append_cancel_left (hfound.symm.trans ht)
  rcases s with ⟨kind | _ | _ | _, text⟩ | _ | _ <;> cases hevent
  have hlexeme : (Token.ofLexeme kind text d.line).lexeme.toList = text := String.toList_ofList
  rw [hlexeme]
  exact ⟨hread, rfl, hcut, hline⟩

end Cursor

/-- A string ends in its closing quote. -/
theorem exists_front_of_string {text after : List Char}
    (h : (Segment.matched (.token .string) text).Cut after) : ∃ front, text = front ++ ['"'] := by
  obtain ⟨body, -, rfl⟩ := spells_of_cut h
  exact ⟨'"' :: body, rfl⟩

/-! ## The lines of a scan -/

/-- The line of an event. -/
def ScanEvent.line : ScanEvent → Nat
  | token t => t.line
  | error e => e.line

theorem line_of_event? {s : Segment} {line : Nat} {event : ScanEvent}
    (h : s.event? line = some event) : event.line = line := by
  rcases s with ⟨_ | _ | _ | _, _⟩ | _ | _ <;> cases h <;> rfl

theorem line_le_of_mem_events {line : Nat} {segs : List Segment} {event : ScanEvent}
    (h : event ∈ events line segs) : line ≤ event.line ∧ event.line ≤ lastLine line segs := by
  induction segs generalizing line with
  | nil => cases h
  | cons s rest ih =>
    rw [events, List.mem_append, Option.mem_toList] at h
    rw [lastLine]
    rcases h with hs | hrest
    · rw [line_of_event? hs, lastLine_eq]
      omega
    · have hbounds := ih hrest
      omega

/-- **The lines of events never decrease.** -/
theorem pairwise_line_events (line : Nat) (segs : List Segment) :
    (events line segs).Pairwise fun e f => e.line ≤ f.line := by
  induction segs generalizing line with
  | nil => exact .nil
  | cons s rest ih =>
    rw [events, List.pairwise_append]
    refine ⟨?_, ih _, ?_⟩
    · cases s.event? (line + s.newlines) <;> simp
    · intro e he f hf
      rw [line_of_event? (Option.mem_toList.1 he)]
      exact (line_le_of_mem_events hf).1

theorem pairwise_line_tokens (source : String) :
    (scan source).tokens.Pairwise fun s t => s.line ≤ t.line := by
  rw [Scan.tokens, List.pairwise_append]
  refine ⟨?_, List.pairwise_singleton _ _, ?_⟩
  · rw [Scan.lexed, List.pairwise_filterMap]
    refine (pairwise_line_events 1 _).imp ?_
    rintro e f hle s hs t ht
    cases e <;> cases f <;> cases hs <;> cases ht
    exact hle
  · intro s hs t ht
    obtain ⟨event, hevent, htoken⟩ := List.mem_filterMap.1 hs
    rw [List.mem_singleton.1 ht]
    cases event <;> cases htoken
    exact (line_le_of_mem_events hevent).2

/-- **Lines are counted by newlines.** Wherever the cursor of a scan stands
between two segments, its line is 1 plus the newlines it has read, and at
the end it has found what the scan finds. A token is read in a step of its
own, and its line is that of the last character read by then: of its first
character if it is no string, and of its closing quote if it is one. The
last token stands on the line behind all newlines, and the lines never
decrease. -/
theorem scan_lines (source : String) :
    (∀ c, Cursor.Reached source.toList c →
      c.read ++ c.left = source.toList ∧ c.line = 1 + c.read.count '\n') ∧
    (∃ c, Cursor.Reached source.toList c ∧ c.left = [] ∧ scan source = ⟨c.found, c.line⟩) ∧
    (∀ before t after, (scan source).events = before ++ .token t :: after →
      ∃ c d, Cursor.Reached source.toList c ∧ c.found = before ∧ c.next? = some d ∧
        d.found = before ++ [.token t] ∧ d.read = c.read ++ t.lexeme.toList ∧
        t.line = 1 + d.read.count '\n' ∧
        (t.kind ≠ .string → t.line = 1 + c.read.count '\n') ∧
        (t.kind = .string → ∃ front, d.read = front ++ ['"'] ∧ t.line = 1 + front.count '\n')) ∧
    (scan source).tokens.getLast? = some (.eof (1 + source.toList.count '\n')) ∧
    (scan source).tokens.Pairwise fun s t => s.line ≤ t.line := by
  have hstart : Cursor.Reached source.toList (.start source.toList) := .start
  obtain ⟨last, hlast, hend⟩ := hstart.exists_end
  have hscan := hlast.scanChars_eq hend
  refine ⟨fun c hc => ⟨hc.read_append_left, hc.line_eq⟩, ⟨last, hlast, hend, hscan⟩, ?_, ?_,
    pairwise_line_tokens source⟩
  · intro before t after hevents
    have hfound : last.found = before ++ .token t :: after := by
      rw [← hevents, scan, hscan]
    obtain ⟨c, d, hc, hbefore, hstep, hadded⟩ := hlast.exists_step hfound
    obtain ⟨hread, hline, hcut, hmoved⟩ :=
      Cursor.exists_token_of_next? hstep (hbefore ▸ hadded)
    refine ⟨c, d, hc, hbefore, hstep, hadded, hread, ?_, fun hkind => ?_, fun hkind => ?_⟩
    · rw [hline, (hc.next hstep).line_eq]
    · rw [hline, hmoved, List.count_eq_zero.2 (newline_not_mem_of_cut hcut hkind), hc.line_eq,
        Nat.add_zero]
    · rw [hkind] at hcut
      obtain ⟨front, hfront⟩ := exists_front_of_string hcut
      refine ⟨c.read ++ front, by rw [hread, hfront, List.append_assoc], ?_⟩
      rw [hline, (hc.next hstep).line_eq, hread, hfront, ← List.append_assoc, List.count_append]
      rfl
  · rw [Scan.tokens, List.getLast?_concat, scan, lastLine_scanChars]

end LoxFront
