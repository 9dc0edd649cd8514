import LoxFront.Proofs.Lexical.ErrorReport
import Mathlib.Data.List.DropRight
/-!
# Sources that go on

A text put behind a source changes the last segment, which may go on into
it, and the one before that in one case alone: a number before a point with
nothing behind it takes the point if a digit comes (`exists_kept_segments`).
So all tokens but the last one or two are read already, whatever the text
is. A stray character is reported from where it stands, so no text behind it
takes it back.
-/

namespace LoxFront

/-! ## Segments that are kept -/

theorem segments_point : segments ['.'] = [.matched (.token .dot) ['.']] := by
  have hcut : (Segment.matched (.token .dot) ['.']).Cut [] := .mark rfl
  have hsegs := segments_of_cut hcut
  rw [segments_nil] at hsegs
  exact hsegs

/-- **All segments are kept but two, or but one if no point stands last.** -/
theorem exists_kept_segments (source more : List Char) :
    ∃ kept changed later, segments source = kept ++ changed ∧
      segments (source ++ more) = kept ++ later ∧ changed.length ≤ 2 ∧
      (source.getLast? ≠ some '.' → changed.length ≤ 1) := by
  refine segments_induction (motive := fun source segs =>
    ∃ kept changed later, segs = kept ++ changed ∧ segments (source ++ more) = kept ++ later ∧
      changed.length ≤ 2 ∧ (source.getLast? ≠ some '.' → changed.length ≤ 1)) ?nil ?cut source
  case nil => exact ⟨[], [], segments more, rfl, rfl, Nat.zero_le 2, fun _ => Nat.zero_le 1⟩
  case cut =>
    intro s after hcut ih
    by_cases hlast : after = []
    · subst hlast
      refine ⟨[], [s], _, ?_, rfl, Nat.le_succ 1, fun _ => Nat.le_refl 1⟩
      rw [segments_nil, List.nil_append]
    by_cases hpoint : after = ['.']
    · -- a digit behind the point takes both to the number before it
      subst hpoint
      refine ⟨[], [s, .matched (.token .dot) ['.']], _, ?_, rfl, Nat.le_refl 2, fun hne => ?_⟩
      · rw [segments_point, List.nil_append]
      · exact (hne List.getLast?_concat).elim
    · obtain ⟨kept, changed, later, hsegs, hmore, htwo, hone⟩ := ih
      have hclosed : ∀ text, s ≠ .openString text := by
        rintro text rfl
        cases hcut
        exact hlast rfl
      have hgoes : s.Cut (after ++ more) :=
        hcut.append hclosed (fun hnil => (hlast hnil).elim) fun hdot => (hpoint hdot).elim
      refine ⟨s :: kept, changed, later, ?_, ?_, htwo, fun hne => hone ?_⟩
      · rw [hsegs, List.cons_append]
      · rw [List.append_assoc, segments_of_cut hgoes, hmore, List.cons_append]
      · rwa [List.getLast?_append_of_ne_nil _ hlast] at hne

/-! ## Tokens that are kept -/

/-- A segment is one token at most. -/
theorem length_filterMap_events_le (line : Nat) (segs : List Segment) :
    ((events line segs).filterMap ScanEvent.token?).length ≤ segs.length := by
  induction segs generalizing line with
  | nil => exact Nat.le_refl 0
  | cons s rest ih =>
    have hevent : ((s.event? (line + s.newlines)).toList.filterMap ScanEvent.token?).length ≤ 1 :=
      (List.length_filterMap_le _ _).trans (Option.length_toList_le)
    have hrest := ih (line + s.newlines)
    rw [events, List.filterMap_append, List.length_append, List.length_cons]
    omega

/-- What is left of two parts without as many at the end as the second has
is in the first part. -/
theorem rdrop_isPrefix {α : Type} {kept changed later : List α} {n : Nat}
    (h : changed.length ≤ n) : (kept ++ changed).rdrop n <+: kept ++ later := by
  have hshort : (kept ++ changed).length - n ≤ kept.length := by
    rw [List.length_append]
    omega
  rw [List.rdrop, List.take_append_of_le_length hshort]
  exact (List.take_prefix _ kept).trans (List.prefix_append kept later)

theorem rdrop_lexed_isPrefix {source more : List Char} {n : Nat}
    {kept changed later : List Segment} (hsegs : segments source = kept ++ changed)
    (hmore : segments (source ++ more) = kept ++ later) (hfew : changed.length ≤ n) :
    (scanChars source).lexed.rdrop n <+: (scanChars (source ++ more)).lexed := by
  rw [Scan.lexed, Scan.lexed, scanChars, scanChars, hsegs, hmore, events_append, events_append,
    List.filterMap_append, List.filterMap_append]
  exact rdrop_isPrefix ((length_filterMap_events_le _ changed).trans hfew)

/-! ## Errors that are kept -/

/-- The mode behind a character is told by the next one, if there is one. -/
theorem after_append (mode : Mode) (c : Char) {rest : List Char} (h : rest ≠ [])
    (more : List Char) : mode.after c (rest ++ more) = mode.after c rest := by
  obtain ⟨d, tail, rfl⟩ := List.exists_cons_of_ne_nil h
  rfl

/-- Whether an error is a character outside the alphabet. -/
def ScanError.isStray : ScanError → Bool
  | unterminatedString _ => false
  | unexpectedCharacter _ _ => true

theorem filter_modeErrors_nil (mode : Mode) (line : Nat) :
    (modeErrors mode line []).filter ScanError.isStray = [] := by
  cases mode <;> rfl

/-- **A stray character is an error whatever follows it.** -/
theorem filter_modeErrors_isPrefix (mode : Mode) (line : Nat) (source more : List Char) :
    (modeErrors mode line source).filter ScanError.isStray <+:
      modeErrors mode line (source ++ more) := by
  induction source generalizing mode line with
  | nil =>
    rw [filter_modeErrors_nil]
    exact List.nil_prefix
  | cons c rest ih =>
    rw [List.cons_append, modeErrors, modeErrors, List.filter_append]
    have hkept : (if mode = .code ∧ inAlphabet c = false then
        [ScanError.unexpectedCharacter line c] else []).filter ScanError.isStray =
        if mode = .code ∧ inAlphabet c = false then [.unexpectedCharacter line c] else [] := by
      split <;> rfl
    rw [hkept, List.prefix_append_right_inj]
    by_cases hrest : rest = []
    · rw [hrest, filter_modeErrors_nil]
      exact List.nil_prefix
    · rw [after_append mode c hrest]
      exact ih _ _

theorem stray_errors_isPrefix (s t : String) :
    (scan s).errors.filter ScanError.isStray <+: (scan (s ++ t)).errors := by
  rw [scan, scan, String.toList_append, errors_scanChars, errors_scanChars]
  exact filter_modeErrors_isPrefix .code 1 s.toList t.toList

/-! ## The scan of a longer text -/

/-- **What is behind a source leaves most of its scan alone.** All its
tokens but the last two are the first tokens of every longer source, and
all but the last one if it does not end in a point. Two are needed, for a
point is a token of its own only as long as no digit follows it. The
characters that were reported stay reported, before all other errors and
on their lines. -/
theorem scan_append_isPrefix (s t : String) :
    (scan s).lexed.rdrop 2 <+: (scan (s ++ t)).lexed ∧
      (s.toList.getLast? ≠ some '.' → (scan s).lexed.rdrop 1 <+: (scan (s ++ t)).lexed) ∧
      ((scan s).errors.filter fun e => e.message = "Unexpected character") <+:
        (scan (s ++ t)).errors ∧
      (scan "1.").lexed.map Token.kind = [.number, .dot] ∧
      (scan ("1." ++ "5")).lexed.map Token.kind = [.number] ∧
      ¬ (scan "1.").lexed.rdrop 1 <+: (scan ("1." ++ "5")).lexed := by
  obtain ⟨kept, changed, later, hsegs, hmore, htwo, hone⟩ :=
    exists_kept_segments s.toList t.toList
  have hlonger : scan (s ++ t) = scanChars (s.toList ++ t.toList) := by
    rw [scan, String.toList_append]
  have hstray : (fun e : ScanError => decide (e.message = "Unexpected character")) =
      ScanError.isStray := by
    funext e
    cases e <;> rfl
  refine ⟨?_, fun hend => ?_, ?_, ?_⟩
  · rw [hlonger]
    exact rdrop_lexed_isPrefix hsegs hmore htwo
  · rw [hlonger]
    exact rdrop_lexed_isPrefix hsegs hmore (hone hend)
  · rw [hstray]
    exact stray_errors_isPrefix s t
  · decide +kernel

/-- The last of three tokens becomes the start of a comment. -/
theorem scan_append_isPrefix_slash :
    "1./".toList.getLast? ≠ some '.' ∧
      [.ofLexeme .number ['1'] 1, .ofLexeme .dot ['.'] 1] <+: (scan ("1./" ++ "/5")).lexed := by
  have hend : "1./".toList.getLast? ≠ some '.' := by decide
  have hlexed : (scan "1./").lexed =
      [.ofLexeme .number ['1'] 1, .ofLexeme .dot ['.'] 1, .ofLexeme .slash ['/'] 1] := by
    decide +kernel
  have hkept := (scan_append_isPrefix "1./" "/5").2.1 hend
  rw [hlexed] at hkept
  exact ⟨hend, hkept⟩

end LoxFront
