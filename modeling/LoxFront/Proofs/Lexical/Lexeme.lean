import LoxFront.Lexical.Scan
import LoxFront.Proofs.Lexical.LongestMatch
/-!
# Lexemes of scans

What can be said of a token from its having been read, whatever the source
and whatever stood around it: its text was cut off there under the rule of
its kind (`Token.IsRead`), and since no text is of two rules, kind and
literal are functions of the lexeme (`Token.IsRead.eq_of_lexeme`).
-/

namespace LoxFront

/-- **A token that a scan can give**: its text can be cut off somewhere. -/
def Token.IsRead (t : Token) : Prop :=
  ∃ (kind : TokenKind) (text after : List Char) (line : Nat),
    (Segment.matched (.token kind) text).Cut after ∧ t = .ofLexeme kind text line

/-- Every event is that of a segment. -/
theorem exists_segment_of_mem_events {line : Nat} {segs : List Segment} {event : ScanEvent}
    (h : event ∈ events line segs) :
    ∃ s ∈ segs, ∃ last, s.event? last = some event := by
  induction segs generalizing line with
  | nil => cases h
  | cons s rest ih =>
    rw [events, List.mem_append, Option.mem_toList] at h
    rcases h with hs | hrest
    · exact ⟨s, List.mem_cons_self, _, hs⟩
    · obtain ⟨t, ht, last, hlast⟩ := ih hrest
      exact ⟨t, List.mem_cons_of_mem _ ht, last, hlast⟩

theorem isRead_of_event {s : Segment} {after : List Char} {line : Nat} {t : Token}
    (hcut : s.Cut after) (h : s.event? line = some (.token t)) : t.IsRead := by
  rcases s with ⟨kind | _ | _ | _, text⟩ | _ | _ <;> cases h
  exact ⟨kind, text, after, line, hcut, rfl⟩

/-- **Every token of a scan was read**, but the last one, for the end. -/
theorem isRead_of_mem_lexed {source : String} {t : Token} (h : t ∈ (scan source).lexed) :
    t.IsRead := by
  obtain ⟨event, hevent, ht⟩ := List.mem_filterMap.1 h
  cases event with
  | error e => cases ht
  | token u =>
    cases ht
    obtain ⟨s, hs, last, hlast⟩ := exists_segment_of_mem_events hevent
    obtain ⟨after, hcut⟩ := exists_cut_of_mem_segments hs
    exact isRead_of_event hcut hlast

/-- A token of a scan was read or is the one at the end. -/
theorem isRead_or_eq_eof {source : String} {t : Token} (h : t ∈ (scan source).tokens) :
    t.IsRead ∨ t = .eof (scan source).lastLine :=
  (List.mem_append.1 h).imp isRead_of_mem_lexed List.mem_singleton.1

/-- A token that was read has a text, and so differs from the one at the
end. -/
theorem Token.IsRead.lexeme_ne {t : Token} (h : t.IsRead) : t.lexeme ≠ "" := by
  obtain ⟨kind, text, after, line, hcut, rfl⟩ := h
  intro hempty
  have htext : text = [] := by
    have := congrArg String.toList hempty
    simpa [Token.ofLexeme] using this
  exact hcut.text_ne_nil htext

/-- **Kind and literal depend on the lexeme alone.** -/
theorem Token.IsRead.eq_of_lexeme {s t : Token} (hs : s.IsRead) (ht : t.IsRead)
    (h : s.lexeme = t.lexeme) : s.kind = t.kind ∧ s.literal = t.literal := by
  obtain ⟨kind, text, after, line, hcut, rfl⟩ := hs
  obtain ⟨other, text', after', line', hcut', rfl⟩ := ht
  have htext : text = text' := by
    have := congrArg String.toList h
    simpa [Token.ofLexeme] using this
  subst htext
  have hrule := (spells_of_cut hcut).unique (spells_of_cut hcut')
  cases hrule
  exact ⟨rfl, rfl⟩

end LoxFront
