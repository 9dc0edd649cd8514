import LoxFront.Lexical.LineEnding
import LoxFront.Proofs.Lexical.Line
import LoxFront.Proofs.Lexical.Newline
import LoxFront.Proofs.Lexical.Written
/-!
# Line endings in a scan

A carriage return that is dropped before a newline was a blank there, or
the last character of a comment, or stood in a string. So from segment to
segment the source and the source with its line endings changed stay
together: a string loses the same carriage returns, a comment or a blank
before a newline loses its last character, and all other segments are the
same (`events_withLineFeeds`). No newline is lost, so lines are the same
too.
-/

namespace LoxFront

variable {text after : List Char}

/-! ## Texts with their line endings changed -/

/-- All but a carriage return right before a newline is kept. -/
theorem withLineFeeds_cons {c : Char} {rest : List Char}
    (h : c = '\r' → rest.head? ≠ some '\n') :
    withLineFeeds (c :: rest) = c :: withLineFeeds rest := by
  rw [withLineFeeds]
  rintro tail rfl rfl
  exact h rfl rfl

theorem withLineFeeds_cons_of_ne {c : Char} (rest : List Char) (h : c ≠ '\r') :
    withLineFeeds (c :: rest) = c :: withLineFeeds rest :=
  withLineFeeds_cons fun hc => absurd hc h

/-- A text changes as its two parts do, if no line ending stands across
them. -/
theorem withLineFeeds_append (h : text.getLast? = some '\r' → after.head? ≠ some '\n') :
    withLineFeeds (text ++ after) = withLineFeeds text ++ withLineFeeds after := by
  fun_induction withLineFeeds text with
  | case1 rest ih =>
    have hrest : withLineFeeds (rest ++ after) = withLineFeeds rest ++ withLineFeeds after := by
      refine ih fun hlast => h ?_
      rw [List.getLast?_cons, List.getLast?_cons, hlast]
      rfl
    rw [List.cons_append, List.cons_append, withLineFeeds, hrest]
    rfl
  | case2 c rest hpair ih =>
    have hrest : withLineFeeds (rest ++ after) = withLineFeeds rest ++ withLineFeeds after := by
      refine ih fun hlast => h ?_
      rw [List.getLast?_cons, hlast]
      rfl
    have hkept : c = '\r' → (rest ++ after).head? ≠ some '\n' := by
      rintro rfl
      cases rest with
      | nil => exact h rfl
      | cons d tail =>
        rintro hd
        cases Option.some.inj hd
        exact hpair tail rfl rfl
    rw [List.cons_append, withLineFeeds_cons hkept, hrest]
    rfl
  | case3 => rfl

theorem withLineFeeds_of_not_mem (h : '\n' ∉ text) : withLineFeeds text = text := by
  induction text with
  | nil => rfl
  | cons c rest ih =>
    rw [List.mem_cons, not_or] at h
    have hrest : rest.head? ≠ some '\n' := fun hhead => h.2 (List.mem_of_mem_head? hhead)
    rw [withLineFeeds_cons fun _ => hrest, ih h.2]

/-- **Of a text without a newline at most the last character is dropped**,
whatever follows it. -/
theorem exists_withLineFeeds_append (h : '\n' ∉ text) (after : List Char) :
    ∃ kept, kept <+: text ∧ withLineFeeds (text ++ after) = kept ++ withLineFeeds after := by
  by_cases hpair : text.getLast? = some '\r' ∧ after.head? = some '\n'
  · obtain ⟨⟨front, rfl⟩, tail, rfl⟩ :=
      And.imp List.getLast?_eq_some_iff.1 List.head?_eq_some_iff.1 hpair
    have hfront : '\n' ∉ front := fun hmem => h (List.mem_append_left _ hmem)
    refine ⟨front, List.prefix_append _ _, ?_⟩
    -- the newline is no part of the text, so the front is followed by the pair
    have happend : withLineFeeds (front ++ '\r' :: '\n' :: tail) =
        withLineFeeds front ++ withLineFeeds ('\r' :: '\n' :: tail) :=
      withLineFeeds_append fun _ => by simp
    rw [List.append_assoc, List.singleton_append, happend, withLineFeeds_of_not_mem hfront]
    rfl
  · refine ⟨text, List.prefix_rfl, ?_⟩
    rw [withLineFeeds_append fun hlast hhead => hpair ⟨hlast, hhead⟩, withLineFeeds_of_not_mem h]

/-- No newline is lost. -/
theorem count_withLineFeeds (text : List Char) :
    (withLineFeeds text).count '\n' = text.count '\n' := by
  fun_induction withLineFeeds text with
  | case1 rest ih => simp [ih]
  | case2 c rest _ ih => rw [List.count_cons, List.count_cons, ih]
  | case3 => rfl

theorem not_mem_withLineFeeds {c : Char} (h : c ∉ text) : c ∉ withLineFeeds text := by
  fun_induction withLineFeeds text with
  | case1 rest ih =>
    simp only [List.mem_cons, not_or] at h ⊢
    exact ⟨h.2.1, ih h.2.2⟩
  | case2 d rest _ ih =>
    simp only [List.mem_cons, not_or] at h ⊢
    exact ⟨h.1, ih h.2⟩
  | case3 => exact List.not_mem_nil

/-- A text begins as before, or with the newline its first carriage return
stood before. -/
theorem beginsLike_withLineFeeds (text : List Char) : BeginsLike text (withLineFeeds text) := by
  fun_cases withLineFeeds text with
  | case1 rest => exact fun c hc => .inl (Option.some.inj hc).symm
  | case2 c rest => exact beginsLike_cons c rest _
  | case3 => simp [BeginsLike]

/-- A string's quotes stay around it. -/
theorem withLineFeeds_quoted (body : List Char) :
    withLineFeeds ('"' :: (body ++ ['"'])) = '"' :: (withLineFeeds body ++ ['"']) := by
  rw [withLineFeeds_cons_of_ne _ (by decide), withLineFeeds_append (by simp)]
  rfl

/-! ## Segments -/

/-- A segment ends where it does before a text with its line endings
changed. -/
theorem cut_withLineFeeds {s : Segment} (h : s.Cut after)
    (hclosed : ∀ text, s ≠ .openString text) : s.Cut (withLineFeeds after) := by
  refine h.of_beginsLike hclosed (beginsLike_withLineFeeds after) ?_
  rintro rest rfl
  exact ⟨withLineFeeds rest, withLineFeeds_cons_of_ne rest (by decide), fun hrest =>
    hrest.of_beginsLike (beginsLike_withLineFeeds rest) (by decide)⟩

/-- An event with its line endings changed. An error has none. -/
def ScanEvent.withLineFeeds : ScanEvent → ScanEvent
  | token t => token t.withLineFeeds
  | error e => error e

/-- A token without a newline in it stays as it is. -/
theorem ofLexeme_withLineFeeds_of_ne {kind : TokenKind} (h : '\n' ∉ text) (hkind : kind ≠ .string)
    (line : Nat) :
    (Token.ofLexeme kind text line).withLineFeeds = .ofLexeme kind text line := by
  have hliteral : ∀ v ∈ kind.literal? text, ∀ s, v ≠ .text s := by
    rintro v hv s rfl
    cases kind with
    | string => exact hkind rfl
    | _ => cases hv
  have hlexeme : LoxFront.withLineFeeds (String.ofList text).toList = text := by
    rw [String.toList_ofList, withLineFeeds_of_not_mem h]
  simp only [Token.withLineFeeds, Token.ofLexeme, hlexeme, Token.mk.injEq, true_and, and_true]
  cases hvalue : kind.literal? text with
  | none => rfl
  | some v =>
    cases v with
    | text s => exact (hliteral _ hvalue s rfl).elim
    | _ => rfl

/-- A string's value is changed as its lexeme is. -/
theorem ofLexeme_quoted_withLineFeeds (body : List Char) (line : Nat) :
    (Token.ofLexeme .string ('"' :: (body ++ ['"'])) line).withLineFeeds =
      .ofLexeme .string ('"' :: (withLineFeeds body ++ ['"'])) line := by
  simp [Token.withLineFeeds, Token.ofLexeme, TokenKind.literal?, withLineFeeds_quoted]

/-! ## Segments without an event -/

theorem events_of_uncounted_cut {s : Segment} (h : s.Cut after)
    (hsilent : ∀ last, s.event? last = none) (hcounted : s.counted = 0) (line : Nat) :
    events line (segments (s.text ++ after)) = events line (segments after) := by
  rw [events_of_cut line h, hsilent, ← counted_of_cut h, hcounted]
  rfl

/-- A comment may lose its last character, and is not noticed either way. -/
theorem events_withLineFeeds_comment {body : List Char} (hbody : '\n' ∉ body)
    (hstop : Halts (· != '\n') after) (line : Nat) :
    events line (segments (withLineFeeds ('/' :: '/' :: (body ++ after)))) =
      events line (segments (withLineFeeds after)) := by
  obtain ⟨kept, hkept, happend⟩ := exists_withLineFeeds_append hbody after
  have hnewline : '\n' ∉ kept := fun hmem => hbody (hkept.subset hmem)
  have hhalts : Halts (· != '\n') (withLineFeeds after) :=
    hstop.of_beginsLike (beginsLike_withLineFeeds after) rfl
  rw [withLineFeeds_cons_of_ne _ (by decide), withLineFeeds_cons_of_ne _ (by decide), happend]
  exact events_of_uncounted_cut (.comment hnewline hhalts) (fun _ => rfl) rfl line

/-- A blank may be dropped. -/
theorem events_withLineFeeds_blank {c : Char} (hc : isBlank c = true) (line : Nat) :
    events line (segments (withLineFeeds (c :: after))) =
      events line (segments (withLineFeeds after)) := by
  by_cases hpair : c = '\r' ∧ after.head? = some '\n'
  · obtain ⟨rfl, hhead⟩ := hpair
    obtain ⟨rest, rfl⟩ := List.head?_eq_some_iff.1 hhead
    rfl
  · rw [withLineFeeds_cons fun hr hhead => hpair ⟨hr, hhead⟩]
    exact events_of_uncounted_cut (.blank hc) (fun _ => rfl) rfl line

/-! ## Segments with an event -/

/-- A segment in which no line ending is changed, nor at its end. -/
theorem segments_withLineFeeds_same {s : Segment} (h : s.Cut after)
    (hsame : withLineFeeds s.text = s.text) (hlast : s.text.getLast? ≠ some '\r')
    (hclosed : ∀ text, s ≠ .openString text) :
    segments (withLineFeeds (s.text ++ after)) = s :: segments (withLineFeeds after) := by
  rw [withLineFeeds_append fun hreturn => absurd hreturn hlast, hsame,
    segments_of_cut (cut_withLineFeeds h hclosed)]

/-- A token that is no string has no line ending in it. -/
theorem segments_withLineFeeds_token {kind : TokenKind}
    (h : (Segment.matched (.token kind) text).Cut after) (hkind : kind ≠ .string) :
    segments (withLineFeeds (text ++ after)) =
      .matched (.token kind) text :: segments (withLineFeeds after) := by
  have hreturn : '\r' ∉ text := whitespace_not_mem_of_cut h hkind '\r' (by decide)
  exact segments_withLineFeeds_same h (withLineFeeds_of_not_mem (newline_not_mem_of_cut h hkind))
    (fun hlast => hreturn (List.mem_of_getLast? hlast)) (by simp)

/-- A string has the line endings in it changed. -/
theorem segments_withLineFeeds_string {body : List Char} (hbody : '"' ∉ body) (after : List Char) :
    segments (withLineFeeds ('"' :: (body ++ ['"']) ++ after)) =
      .matched (.token .string) ('"' :: (withLineFeeds body ++ ['"'])) ::
        segments (withLineFeeds after) := by
  have hlast : ('"' :: (body ++ ['"'])).getLast? = some '"' :=
    List.getLast?_concat (l := '"' :: body)
  rw [withLineFeeds_append fun hreturn => absurd (hlast.symm.trans hreturn) (by decide),
    withLineFeeds_quoted]
  exact segments_of_cut (.string (not_mem_withLineFeeds hbody))

/-- **What a segment comes to** in a source with its line endings changed:
its event, with its own changed, and its newlines. -/
theorem events_withLineFeeds_cut {s : Segment} (h : s.Cut after) (line : Nat) :
    events line (segments (withLineFeeds (s.text ++ after))) =
      ((s.event? (line + s.newlines)).map ScanEvent.withLineFeeds).toList ++
        events (line + s.newlines) (segments (withLineFeeds after)) := by
  rcases s with ⟨kind | _ | _ | _, text⟩ | text | c
  case matched.token =>
    by_cases hkind : kind = .string
    · subst hkind
      obtain ⟨body, hbody, rfl⟩ := spells_of_cut h
      have hnewlines :
          (Segment.matched (.token .string) ('"' :: (withLineFeeds body ++ ['"']))).newlines =
            (Segment.matched (.token .string) ('"' :: (body ++ ['"']))).newlines := by
        rw [Segment.newlines, Segment.newlines, Segment.text, Segment.text, ← withLineFeeds_quoted,
          count_withLineFeeds]
      rw [Segment.text, segments_withLineFeeds_string hbody, events, hnewlines, Segment.event?,
        Segment.event?, Option.map_some, ScanEvent.withLineFeeds, ofLexeme_quoted_withLineFeeds]
    · rw [Segment.text, segments_withLineFeeds_token h hkind, events, Segment.event?,
        Option.map_some, ScanEvent.withLineFeeds,
        ofLexeme_withLineFeeds_of_ne (newline_not_mem_of_cut h hkind) hkind]
  case matched.blank =>
    rw [← counted_of_cut h]
    cases h with
    | blank hc => exact events_withLineFeeds_blank hc line
  case matched.newline =>
    cases h with
    | newline =>
      rw [segments_withLineFeeds_same .newline rfl (by decide) (by simp), events]
      rfl
  case matched.comment =>
    rw [← counted_of_cut h]
    cases h with
    | comment hbody hstop => exact events_withLineFeeds_comment hbody hstop line
  case openString =>
    cases h with
    | @openString body hbody =>
      have hevents := events_of_cut line (.openString (not_mem_withLineFeeds hbody))
      have hnewlines : (Segment.openString ('"' :: withLineFeeds body)).newlines =
          (Segment.openString ('"' :: body)).newlines := by
        rw [Segment.newlines, Segment.newlines, Segment.text, Segment.text,
          ← withLineFeeds_cons_of_ne body (by decide), count_withLineFeeds]
      rw [List.append_nil] at hevents ⊢
      rw [Segment.text, withLineFeeds_cons_of_ne body (by decide), ← hnewlines]
      exact hevents
  case stray =>
    cases h with
    | stray hc =>
      have hreturn : c ≠ '\r' := by rintro rfl; exact absurd hc (by decide)
      have hsame : withLineFeeds [c] = [c] := withLineFeeds_cons_of_ne [] hreturn
      have hlast : [c].getLast? ≠ some '\r' := by simpa using hreturn
      rw [segments_withLineFeeds_same (.stray hc) hsame hlast (by simp), events]
      rfl

/-- **The events of a source with its line endings changed** are its
events, with theirs changed. -/
theorem events_withLineFeeds (source : List Char) (line : Nat) :
    events line (segments (withLineFeeds source)) =
      (events line (segments source)).map ScanEvent.withLineFeeds := by
  revert line
  refine segments_induction (motive := fun source segs => ∀ line,
    events line (segments (withLineFeeds source)) =
      (events line segs).map ScanEvent.withLineFeeds) ?nil ?cut source
  case nil =>
    intro line
    rw [withLineFeeds, segments_nil]
    rfl
  case cut =>
    intro s after hcut ih line
    rw [events_withLineFeeds_cut hcut, ih, events, List.map_append]
    cases s.event? (line + s.newlines) <;> rfl

theorem filterMap_token_withLineFeeds (es : List ScanEvent) :
    (es.map ScanEvent.withLineFeeds).filterMap ScanEvent.token? =
      (es.filterMap ScanEvent.token?).map Token.withLineFeeds :=
  filterMap_map_events (by rintro (_ | _) <;> rfl) es

theorem filterMap_error_withLineFeeds (es : List ScanEvent) :
    (es.map ScanEvent.withLineFeeds).filterMap ScanEvent.error? =
      es.filterMap ScanEvent.error? := by
  have hsame : ∀ e : ScanEvent, e.withLineFeeds.error? = e.error?.map id := by
    rintro (_ | _) <;> rfl
  rw [filterMap_map_events hsame, List.map_id]

/-! ## Scans -/

theorem lastLine_withLineFeeds (source : List Char) :
    (scanChars (withLineFeeds source)).lastLine = (scanChars source).lastLine := by
  rw [lastLine_scanChars, lastLine_scanChars, count_withLineFeeds]

/-- A token of a scan that has no newline in it stays as it is. -/
theorem withLineFeeds_of_isRead {t : Token} (h : t.IsRead) (hline : '\n' ∉ t.lexeme.toList) :
    t.withLineFeeds = t := by
  obtain ⟨kind, text, after, line, hcut, rfl⟩ := h
  rw [Token.ofLexeme, String.toList_ofList] at hline
  by_cases hkind : kind = .string
  · subst hkind
    obtain ⟨body, -, rfl⟩ := spells_of_cut hcut
    have hbody : '\n' ∉ body := fun hmem => hline (by simp [hmem])
    rw [ofLexeme_quoted_withLineFeeds, withLineFeeds_of_not_mem hbody]
  · exact ofLexeme_withLineFeeds_of_ne hline hkind line

/-- **Line endings do not matter.** A source in which every carriage return
right before a newline is dropped has the errors of the source, on the same
lines, and its tokens, of the same kinds and on the same lines, whose
lexemes and values have the same carriage returns dropped. Only a string
that spans lines is changed by that. -/
theorem scan_withLineFeeds (source : String) :
    (scan (.ofList (withLineFeeds source.toList))).errors = (scan source).errors ∧
      (scan (.ofList (withLineFeeds source.toList))).tokens =
        (scan source).tokens.map Token.withLineFeeds ∧
      ∀ t ∈ (scan source).tokens, t.withLineFeeds ≠ t →
        t.kind = .string ∧ '\n' ∈ t.lexeme.toList := by
  have hevents : (scan (.ofList (withLineFeeds source.toList))).events =
      (scan source).events.map ScanEvent.withLineFeeds := by
    rw [scan, String.toList_ofList]
    exact events_withLineFeeds source.toList 1
  have hline : (scan (.ofList (withLineFeeds source.toList))).lastLine =
      (scan source).lastLine := by
    rw [scan, String.toList_ofList]
    exact lastLine_withLineFeeds source.toList
  refine ⟨?errors, ?tokens, fun t ht hchanged => ?changed⟩
  case errors =>
    rw [Scan.errors, hevents, filterMap_error_withLineFeeds]
    rfl
  case tokens =>
    rw [Scan.tokens, Scan.lexed, hevents, hline, filterMap_token_withLineFeeds, Scan.tokens,
      List.map_append]
    rfl
  case changed =>
    rcases isRead_or_eq_eof ht with hread | rfl
    · have hmem : '\n' ∈ t.lexeme.toList :=
        Decidable.of_not_not fun hline => hchanged (withLineFeeds_of_isRead hread hline)
      obtain ⟨kind, text, after, line, hcut, rfl⟩ := hread
      refine ⟨Decidable.of_not_not fun hkind => ?_, hmem⟩
      rw [Token.ofLexeme, String.toList_ofList] at hmem
      exact newline_not_mem_of_cut hcut hkind hmem
    · exact absurd rfl hchanged

/-- Of two carriage returns before a newline the first stays. -/
example : withLineFeeds "\"a\r\r\nb\" 1.\r\n//\r\r\n\r".toList =
    "\"a\r\nb\" 1.\n//\r\n\r".toList := by decide

end LoxFront
