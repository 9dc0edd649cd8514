import LoxFront.Proofs.Lexical.Lexeme
/-!
# Tokens written out

A token's text ends where a blank, a newline or nothing follows, whatever
followed it where it was read (`cut_before_break`). So tokens can be
written out, from one scan or from many, with any spacing between them that
starts with a blank or a newline, and a scan of that text gives them back,
each on the line it now ends on.
-/

namespace LoxFront

/-- **Text between tokens**: blanks, newlines, and comments with the
newline that ends them. -/
inductive Spacing : List Char → Prop
  | nil : Spacing []
  | blank {c : Char} {rest : List Char} :
      isBlank c = true → Spacing rest → Spacing (c :: rest)
  | newline {rest : List Char} : Spacing rest → Spacing ('\n' :: rest)
  | comment {body rest : List Char} :
      '\n' ∉ body → Spacing rest → Spacing ('/' :: '/' :: (body ++ '\n' :: rest))

/-- A character that ends whatever token stands before it. -/
def isBreak (c : Char) : Bool := isBlank c || c == '\n'

/-- **Text that keeps two tokens apart**: spacing that starts with a blank
or a newline. -/
def Separator (text : List Char) : Prop :=
  Spacing text ∧ ∃ (c : Char) (rest : List Char), text = c :: rest ∧ isBreak c = true

/-- Tokens written out, each behind its spacing. -/
def written (pieces : List (List Char × Token)) : List Char :=
  pieces.flatMap fun p => p.1 ++ p.2.lexeme.toList

/-- The tokens that were written out, each on the line on which it ends in
the text, whose first line is this one. -/
def writtenTokens (line : Nat) (pieces : List (List Char × Token)) : List Token :=
  pieces.mapIdx fun i p =>
    { p.2 with line := line + (written (pieces.take (i + 1))).count '\n' }

/-! ## A token before a break -/

/-- A text at whose start a token ends. -/
def Breaks (after : List Char) : Prop := Halts (fun c => !isBreak c) after

theorem breaks_nil : Breaks [] := halts_nil _

/-- No token goes on over a break. -/
theorem halts_of_breaks {after : List Char} (h : Breaks after) : Halts continuesToken after := by
  refine h.mono fun c hc => ?_
  rw [Bool.not_eq_true', Bool.eq_false_iff]
  intro hbreak
  simp only [isBreak, isBlank, Bool.or_eq_true, beq_iff_eq] at hbreak
  obtain ((rfl | rfl) | rfl) | rfl := hbreak <;> exact absurd hc (by decide)

/-- **A token ends before a break**, whatever it ended before. -/
theorem cut_before_break {kind : TokenKind} {text after rest : List Char}
    (h : (Segment.matched (.token kind) text).Cut after) (hrest : Breaks rest) :
    (Segment.matched (.token kind) text).Cut rest :=
  h.before (halts_of_breaks hrest)

/-! ## Events of what is written -/

theorem events_of_cut {s : Segment} {after : List Char} (line : Nat) (h : s.Cut after) :
    events line (segments (s.text ++ after)) =
      (s.event? (line + s.newlines)).toList ++ events (line + s.newlines) (segments after) := by
  rw [segments_of_cut h, events]

/-- A segment without an event: only its newlines count. -/
theorem events_of_silent_cut {s : Segment} {after : List Char} (line : Nat) (h : s.Cut after)
    (hsilent : ∀ last, s.event? last = none) :
    events line (segments (s.text ++ after)) =
      events (line + s.text.count '\n') (segments after) := by
  rw [events_of_cut line h, hsilent]
  rfl

/-- Spacing has no events. -/
theorem events_spacing {text : List Char} (h : Spacing text) (line : Nat) (rest : List Char) :
    events line (segments (text ++ rest)) = events (line + text.count '\n') (segments rest) := by
  induction h generalizing line with
  | nil => rfl
  | @blank c text hc _ ih =>
    have hcut : (Segment.matched .blank [c]).Cut (text ++ rest) := .blank hc
    refine (events_of_silent_cut line hcut fun _ => rfl).trans ?_
    rw [ih, Nat.add_assoc, ← List.count_append]
    rfl
  | @newline text _ ih =>
    have hcut : (Segment.matched .newline ['\n']).Cut (text ++ rest) := .newline
    refine (events_of_silent_cut line hcut fun _ => rfl).trans ?_
    rw [ih, Nat.add_assoc, ← List.count_append]
    rfl
  | @comment body text hbody _ ih =>
    -- the comment ends before its newline, which is a segment of its own
    have hcut : (Segment.matched .comment ('/' :: '/' :: body)).Cut ('\n' :: (text ++ rest)) :=
      .comment hbody (halts_cons.2 rfl)
    have hnewline : (Segment.matched .newline ['\n']).Cut (text ++ rest) := .newline
    have hsource : '/' :: '/' :: (body ++ '\n' :: text) ++ rest =
        ('/' :: '/' :: body) ++ '\n' :: (text ++ rest) := by simp
    rw [hsource]
    refine (events_of_silent_cut line hcut fun _ => rfl).trans ?_
    refine (events_of_silent_cut _ hnewline fun _ => rfl).trans ?_
    have hcount : (body ++ '\n' :: text).count '\n' = body.count '\n' + 1 + text.count '\n' := by
      rw [List.count_append, List.count_cons_self]
      omega
    rw [ih]
    simp [Segment.text, Nat.add_assoc, hcount]

/-- A token behind its spacing has one event, on the line on which it now
ends. -/
theorem events_piece {spacing rest : List Char} {t : Token} (line : Nat)
    (hspacing : Spacing spacing) (ht : t.IsRead) (hrest : Breaks rest) :
    events line (segments (spacing ++ t.lexeme.toList ++ rest)) =
      .token { t with line := line + (spacing ++ t.lexeme.toList).count '\n' } ::
        events (line + (spacing ++ t.lexeme.toList).count '\n') (segments rest) := by
  obtain ⟨kind, text, after, old, hcut, rfl⟩ := ht
  have hlexeme : (Token.ofLexeme kind text old).lexeme.toList = text := String.toList_ofList
  rw [hlexeme, List.append_assoc, events_spacing hspacing, List.count_append, ← Nat.add_assoc]
  exact events_of_cut _ (cut_before_break hcut hrest)

theorem breaks_written {pieces : List (List Char × Token)}
    (h : ∀ p ∈ pieces.head?, Separator p.1) : Breaks (written pieces) := by
  cases pieces with
  | nil => exact breaks_nil
  | cons p rest =>
    obtain ⟨-, c, spacing, hspacing, hc⟩ := h p rfl
    rw [written, List.flatMap_cons, hspacing]
    exact halts_cons.2 (by rw [hc]; rfl)

theorem writtenTokens_cons (line : Nat) (p : List Char × Token) (rest : List (List Char × Token)) :
    writtenTokens line (p :: rest) =
      { p.2 with line := line + (p.1 ++ p.2.lexeme.toList).count '\n' } ::
        writtenTokens (line + (p.1 ++ p.2.lexeme.toList).count '\n') rest := by
  have hline : ∀ i, line + (written ((p :: rest).take (i + 1))).count '\n' =
      line + (p.1 ++ p.2.lexeme.toList).count '\n' + (written (rest.take i)).count '\n' := by
    intro i
    rw [List.take_succ_cons, written, List.flatMap_cons, List.count_append, ← Nat.add_assoc]
    rfl
  rw [writtenTokens, List.mapIdx_cons]
  simp only [hline]
  rfl

/-- **Each token that was written out is an event**, and there is no other. -/
theorem events_written {pieces : List (List Char × Token)} (line : Nat)
    (hread : ∀ p ∈ pieces, p.2.IsRead) (hlead : ∀ p ∈ pieces.head?, Spacing p.1)
    (hapart : ∀ p ∈ pieces.tail, Separator p.1) :
    events line (segments (written pieces)) = (writtenTokens line pieces).map .token := by
  induction pieces generalizing line with
  | nil => rw [written, List.flatMap_nil, segments_nil]; rfl
  | cons p rest ih =>
    rw [List.forall_mem_cons] at hread
    have hhead : ∀ q ∈ rest.head?, Separator q.1 := fun q hq => hapart q (List.mem_of_mem_head? hq)
    have hlater := ih (line + (p.1 ++ p.2.lexeme.toList).count '\n') hread.2
      (fun q hq => (hhead q hq).1) (fun q hq => hapart q (List.mem_of_mem_tail hq))
    rw [writtenTokens_cons, List.map_cons, ← hlater]
    exact events_piece line (hlead p rfl) hread.1 (breaks_written hhead)

/-- **Tokens that are written out are scanned back.** They may be from any
scans, with errors or without; of each one kind, lexeme and literal are
kept, and its line is the one on which it ends in the text written. Kind
and literal are those of the lexeme in any scan. -/
theorem scan_written (pieces : List (List Char × Token))
    (hscanned : ∀ p ∈ pieces, p.2.kind ≠ .eof ∧ ∃ source, p.2 ∈ (scan source).tokens)
    (hlead : ∀ p ∈ pieces.head?, Spacing p.1) (hapart : ∀ p ∈ pieces.tail, Separator p.1) :
    (scan (.ofList (written pieces))).errors = [] ∧
      (scan (.ofList (written pieces))).tokens =
        writtenTokens 1 pieces ++ [.eof (1 + (written pieces).count '\n')] ∧
      ∀ p ∈ pieces, ∀ source, ∀ t ∈ (scan source).tokens, t.lexeme = p.2.lexeme →
        t.kind = p.2.kind ∧ t.literal = p.2.literal := by
  have hread : ∀ p ∈ pieces, p.2.IsRead := by
    intro p hp
    obtain ⟨hkind, source, hsource⟩ := hscanned p hp
    refine (isRead_or_eq_eof hsource).resolve_right fun heof => hkind ?_
    rw [heof]
    rfl
  have hevents := events_written 1 hread hlead hapart
  rw [scan, String.toList_ofList]
  refine ⟨?_, ?_, fun p hp source t ht hlexeme => ?_⟩
  · rw [Scan.errors, scanChars, hevents, List.filterMap_map]
    simp [Function.comp_def, ScanEvent.error?]
  · rw [Scan.tokens, Scan.lexed, lastLine_scanChars, scanChars, hevents, List.filterMap_map]
    simp [Function.comp_def, ScanEvent.token?]
  · have hne := (hread p hp).lexeme_ne
    rcases isRead_or_eq_eof ht with ht | rfl
    · exact ht.eq_of_lexeme (hread p hp) hlexeme
    · exact absurd hlexeme.symm hne

/-- A string over two lines that holds slashes, a number and a point, the
last two from a scan in which they touch. -/
def stringNumberPoint : List (List Char × Token) :=
  [([], .ofLexeme .string "\"a\n//\"".toList 2), (" //\"\n".toList, .ofLexeme .number ['1'] 1),
    (['\n'], .ofLexeme .dot ['.'] 1)]

theorem scan_written_stringNumberPoint :
    ((∀ p ∈ stringNumberPoint, p.2.kind ≠ .eof ∧ ∃ source, p.2 ∈ (scan source).tokens) ∧
      (∀ p ∈ stringNumberPoint.head?, Spacing p.1) ∧
      ∀ p ∈ stringNumberPoint.tail, Separator p.1) ∧
    (scan (.ofList (written stringNumberPoint))).errors = [] ∧
    (scan (.ofList (written stringNumberPoint))).tokens =
      [.ofLexeme .string "\"a\n//\"".toList 2, .ofLexeme .number ['1'] 3,
        .ofLexeme .dot ['.'] 4, .eof 4] := by
  have hstring : (scan "@\"a\n//\"#").tokens =
      [.ofLexeme .string "\"a\n//\"".toList 2, .eof 2] := by decide +kernel
  have hnumber : (scan "1.").tokens =
      [.ofLexeme .number ['1'] 1, .ofLexeme .dot ['.'] 1, .eof 1] := by decide +kernel
  have hscanned : ∀ p ∈ stringNumberPoint,
      p.2.kind ≠ .eof ∧ ∃ source, p.2 ∈ (scan source).tokens := by
    simp only [stringNumberPoint, List.forall_mem_cons]
    refine ⟨⟨by decide, "@\"a\n//\"#", ?_⟩, ⟨by decide, "1.", ?_⟩, ⟨by decide, "1.", ?_⟩, by simp⟩
    · rw [hstring]
      exact List.mem_cons_self
    · rw [hnumber]
      exact List.mem_cons_self
    · rw [hnumber]
      exact List.mem_cons_of_mem _ List.mem_cons_self
  have hlead : ∀ p ∈ stringNumberPoint.head?, Spacing p.1 := by
    rintro p ⟨⟩
    exact .nil
  have hcomment : Spacing ("//\"\n".toList) :=
    Spacing.comment (List.not_mem_cons_of_ne_of_not_mem (by decide) List.not_mem_nil) .nil
  have hapart : ∀ p ∈ stringNumberPoint.tail, Separator p.1 := by
    simp only [stringNumberPoint, List.tail_cons, List.forall_mem_cons]
    exact ⟨⟨.blank (by decide) hcomment, ' ', _, rfl, by decide⟩,
      ⟨.newline .nil, _, _, rfl, by decide⟩, by simp⟩
  obtain ⟨herrors, htokens, -⟩ := scan_written stringNumberPoint hscanned hlead hapart
  refine ⟨⟨hscanned, hlead, hapart⟩, herrors, ?_⟩
  rw [htokens]
  decide +kernel

end LoxFront
