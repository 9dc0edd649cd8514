import LoxFront.Proofs.Lexical.Written
/-!
# Carriage returns at the end

A carriage return at the end of a source is a blank, or the end of a
comment or of a string that is left open; in each case the scan is the
same without it. So it makes no difference whether the end of a line is
cut off with its carriage returns or without.
-/

namespace LoxFront

variable {returns : List Char}

theorem spacing_returns (h : ∀ c ∈ returns, c = '\r') : Spacing returns := by
  induction returns with
  | nil => exact .nil
  | cons c rest ih =>
    rw [List.forall_mem_cons] at h
    exact .blank (by rw [h.1]; rfl) (ih h.2)

/-- A run that takes no carriage return halts before any number of them. -/
theorem halts_returns {p : Char → Bool} (hp : p '\r' = false) (h : ∀ c ∈ returns, c = '\r') :
    Halts p returns := by
  intro c hc
  rw [h c (List.mem_of_mem_head? hc), hp]

theorem not_mem_returns {c : Char} (hc : c ≠ '\r') (h : ∀ c ∈ returns, c = '\r') : c ∉ returns :=
  fun hmem => hc (h c hmem)

/-- Carriage returns add no line. -/
theorem count_append_returns (h : ∀ c ∈ returns, c = '\r') (text : List Char) :
    (text ++ returns).count '\n' = text.count '\n' := by
  rw [List.count_append, List.count_eq_zero.2 (not_mem_returns (by decide) h), Nat.add_zero]

/-- Carriage returns alone have no events. -/
theorem events_returns (h : ∀ c ∈ returns, c = '\r') (line : Nat) :
    events line (segments returns) = [] := by
  have hspacing := events_spacing (spacing_returns h) line []
  rw [List.append_nil, segments_nil] at hspacing
  exact hspacing

/-- A last segment that is no comment and no open string ends before
carriage returns as it does at the end. -/
theorem cut_before_returns {s : Segment} (hcut : s.Cut []) (h : ∀ c ∈ returns, c = '\r')
    (hcomment : ∀ text, s ≠ .matched .comment text) (hclosed : ∀ text, s ≠ .openString text) :
    s.Cut returns := by
  rcases s with ⟨kind | _ | _ | _, text⟩ | text | c
  case matched.token => exact cut_before_break hcut (halts_returns rfl h)
  case matched.blank => cases hcut with | blank hc => exact .blank hc
  case matched.newline => cases hcut with | newline => exact .newline
  case matched.comment => exact (hcomment _ rfl).elim
  case openString => exact (hclosed _ rfl).elim
  case stray => cases hcut with | stray hc => exact .stray hc

/-- The last segment of a source has the same event with carriage returns
behind it. -/
theorem events_last_append_returns {s : Segment} (hcut : s.Cut []) (h : ∀ c ∈ returns, c = '\r')
    (line : Nat) :
    events line (segments (s.text ++ returns)) = events line (segments s.text) := by
  have hlast := events_of_cut line hcut
  rw [List.append_nil, segments_nil] at hlast
  rw [hlast]
  by_cases hcomment : ∃ text, s = .matched .comment text
  · obtain ⟨text, rfl⟩ := hcomment
    cases hcut with
    | @comment body _ hbody =>
      -- they are the comment's
      have hmore : '\n' ∉ body ++ returns := by
        rw [List.mem_append, not_or]
        exact ⟨hbody, not_mem_returns (by decide) h⟩
      have hlonger := events_of_cut line (.comment hmore (halts_nil _))
      rw [List.append_nil, segments_nil] at hlonger
      exact hlonger
  by_cases hopen : ∃ text, s = .openString text
  · obtain ⟨text, rfl⟩ := hopen
    cases hcut with
    | @openString body hbody =>
      -- they are the string's, and no newlines
      have hmore : '"' ∉ body ++ returns := by
        rw [List.mem_append, not_or]
        exact ⟨hbody, not_mem_returns (by decide) h⟩
      have hlonger := events_of_cut line (.openString hmore)
      have hnewlines : (Segment.openString ('"' :: (body ++ returns))).newlines =
          (Segment.openString ('"' :: body)).newlines := count_append_returns h ('"' :: body)
      rw [List.append_nil, segments_nil, hnewlines] at hlonger
      exact hlonger
  · rw [not_exists] at hcomment hopen
    rw [events_of_cut line (cut_before_returns hcut h hcomment hopen), events_returns h]
    rfl

/-- **Carriage returns at the end add no event.** -/
theorem events_append_returns (source : List Char) (h : ∀ c ∈ returns, c = '\r') (line : Nat) :
    events line (segments (source ++ returns)) = events line (segments source) := by
  revert line
  refine segments_induction (motive := fun source segs => ∀ line,
    events line (segments (source ++ returns)) = events line segs) ?nil ?cut source
  case nil => exact events_returns h
  case cut =>
    intro s after hcut ih line
    by_cases hlast : after = []
    · subst hlast
      have hsegs := segments_of_cut hcut
      rw [List.append_nil] at hsegs ⊢
      rw [events_last_append_returns hcut h, hsegs]
    · have hclosed : ∀ text, s ≠ .openString text := by
        rintro text rfl
        cases hcut
        exact hlast rfl
      have hgoes : s.Cut (after ++ returns) :=
        hcut.append hclosed (fun hnil => (hlast hnil).elim) fun _ => halts_returns rfl h
      rw [List.append_assoc, events_of_cut line hgoes, ih, events]

/-- **Carriage returns at the end of a source change nothing.** -/
theorem scanChars_append_returns (source : List Char) (h : ∀ c ∈ returns, c = '\r') :
    scanChars (source ++ returns) = scanChars source := by
  have hevents : (scanChars (source ++ returns)).events = (scanChars source).events :=
    events_append_returns source h 1
  have hline : (scanChars (source ++ returns)).lastLine = (scanChars source).lastLine := by
    rw [lastLine_scanChars, lastLine_scanChars, count_append_returns h]
  exact congrArg₂ Scan.mk hevents hline

end LoxFront
