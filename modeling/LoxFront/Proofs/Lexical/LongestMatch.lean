import LoxFront.Lexical.Scan
import LoxFront.Proofs.Lexical.Cut
import Mathlib.Data.List.Basic
/-!
# The longest match

`Segmented` says without a scanner what a source falls into: at each point
the longest text of any rule counts, and where there is none a fault takes
its share. This file shows that it holds of the segments the scan reads and
of no others, and so that the scan's tokens are those of the longest match.

The two sides meet in the cuts. A text of a rule is a segment that may end
at the end of a source (`spells_iff_cut_nil`), whatever follows it there is
a cut no shorter (`exists_cut_of_spells`), and a source has only one first
cut (`Segment.Cut.unique`).
-/

namespace LoxFront

/-- **A source has one first cut.** -/
theorem Segment.Cut.unique {s t : Segment} {after rest : List Char} (hs : s.Cut after)
    (ht : t.Cut rest) (h : s.text ++ after = t.text ++ rest) : s = t ∧ after = rest := by
  obtain ⟨c, tail, hsource, hfirst⟩ := first_of_cut hs
  have hsame := first_eq_iff.2 ⟨ht, h ▸ hsource⟩
  rw [hfirst] at hsame
  exact Prod.mk.inj hsame

/-! ## Texts of rules, as cuts -/

/-- A word that is spelled as a reserved word is one. -/
theorem wordKind_spelling (k : Keyword) : Segment.wordKind k.spelling.toList = .keyword k := by
  rw [Segment.wordKind, String.ofList_toList, Keyword.ofSpelling?_spelling]

/-- A word that is spelled as none is an identifier. -/
theorem wordKind_eq_identifier {text : List Char} (h : ∀ k : Keyword, text ≠ k.spelling.toList) :
    Segment.wordKind text = .identifier := by
  unfold Segment.wordKind
  split
  · next k hk =>
    have htext := Keyword.ofSpelling?_eq_some_iff.1 hk
    exact (h k (by rw [← htext, String.toList_ofList])).elim
  · rfl

/-- Reserved words are words. -/
theorem isWord_spelling (k : Keyword) : IsWord k.spelling.toList := by
  cases k <;> simp [IsWord, Keyword.spelling, isWordStart, isWordPart]

/-- The kinds with one text are marks, operators, the slash and the
reserved words. -/
theorem cut_of_spelling {kind : TokenKind} {s : String} (h : kind.spelling? = some s) :
    (Segment.matched (.token kind) s.toList).Cut [] := by
  cases kind <;> cases h
  case keyword k =>
    rw [← wordKind_spelling k]
    exact .word (isWord_spelling k) (halts_nil _)
  case slash => exact .slash (halts_nil _)
  case bang => exact .alone rfl (halts_nil _)
  case equal => exact .alone rfl (halts_nil _)
  case less => exact .alone rfl (halts_nil _)
  case greater => exact .alone rfl (halts_nil _)
  case bangEqual => exact .extended rfl
  case equalEqual => exact .extended rfl
  case lessEqual => exact .extended rfl
  case greaterEqual => exact .extended rfl
  -- the ten marks are left
  all_goals exact .mark rfl

/-- A text of a token is a segment at the end of a source. -/
theorem cut_of_tokenSpells {kind : TokenKind} {text : List Char} (h : kind.Spells text) :
    (Segment.matched (.token kind) text).Cut [] := by
  unfold TokenKind.Spells at h
  split at h
  · obtain ⟨hword, hkeyword⟩ := h
    rw [← wordKind_eq_identifier hkeyword]
    exact .word hword (halts_nil _)
  · obtain ⟨body, hbody, rfl⟩ := h
    exact .string hbody
  · rcases h with hdigits | ⟨whole, fraction, hwhole, hfraction, rfl⟩
    · exact .whole hdigits haltsWhole_nil
    · exact .decimal hwhole hfraction (halts_nil _)
  · obtain ⟨s, hs, rfl⟩ := h
    exact cut_of_spelling hs

/-- A text of any rule is a segment at the end of a source. -/
theorem cut_of_spells {rule : Rule} {text : List Char} (h : rule.Spells text) :
    (Segment.matched rule text).Cut [] := by
  cases rule with
  | token kind => exact cut_of_tokenSpells h
  | blank => obtain ⟨c, hc, rfl⟩ := h; exact .blank hc
  | newline => cases h; exact .newline
  | comment => obtain ⟨body, hbody, rfl⟩ := h; exact .comment hbody (halts_nil _)

theorem spells_of_mark {c : Char} {kind : TokenKind} (h : markKind? c = some kind) :
    kind.Spells [c] := by
  unfold markKind? at h
  split at h <;> cases h <;> exact ⟨_, rfl, rfl⟩

theorem spells_of_operator {c : Char} {alone extended : TokenKind}
    (h : operatorKinds? c = some (alone, extended)) :
    alone.Spells [c] ∧ extended.Spells [c, '='] := by
  unfold operatorKinds? at h
  split at h <;> cases h <;> exact ⟨⟨_, rfl, rfl⟩, ⟨_, rfl, rfl⟩⟩

/-- A word is a text of the kind that is looked up for it. -/
theorem spells_wordKind {text : List Char} (h : IsWord text) :
    (Segment.wordKind text).Spells text := by
  by_cases hkeyword : ∃ k : Keyword, text = k.spelling.toList
  · obtain ⟨k, rfl⟩ := hkeyword
    rw [wordKind_spelling]
    exact ⟨_, rfl, rfl⟩
  · rw [not_exists] at hkeyword
    rw [wordKind_eq_identifier hkeyword]
    exact ⟨h, hkeyword⟩

/-- **Whatever is cut off under a rule is a text of the rule.** -/
theorem spells_of_cut {rule : Rule} {text after : List Char}
    (h : (Segment.matched rule text).Cut after) : rule.Spells text := by
  cases h with
  | mark hkind => exact spells_of_mark hkind
  | alone hkinds => exact (spells_of_operator hkinds).1
  | extended hkinds => exact (spells_of_operator hkinds).2
  | slash => exact ⟨_, rfl, rfl⟩
  | comment hbody => exact ⟨_, hbody, rfl⟩
  | string hbody => exact ⟨_, hbody, rfl⟩
  | newline => rfl
  | blank hc => exact ⟨_, hc, rfl⟩
  | whole hdigits => exact .inl hdigits
  | decimal hwhole hfraction => exact .inr ⟨_, _, hwhole, hfraction, rfl⟩
  | word htext => exact spells_wordKind htext

/-- **The texts of a rule are the segments that may stand at the end.** -/
theorem spells_iff_cut_nil {rule : Rule} {text : List Char} :
    rule.Spells text ↔ (Segment.matched rule text).Cut [] :=
  ⟨cut_of_spells, spells_of_cut⟩

/-- **No text is of two rules.** -/
theorem Rule.Spells.unique {r s : Rule} {text : List Char} (hr : r.Spells text)
    (hs : s.Spells text) : r = s :=
  (Segment.matched.inj ((spells_iff_cut_nil.1 hr).unique (spells_iff_cut_nil.1 hs) rfl).1).1

/-! ## A cut no shorter than a text of a rule -/

/-- The source goes on with a text of a rule that is no shorter than this
one. -/
def ReachesPast (text tail : List Char) : Prop :=
  ∃ (rule : Rule) (longer after : List Char), text.length ≤ longer.length ∧
    longer ++ after = text ++ tail ∧ (Segment.matched rule longer).Cut after

/-- A text that is cut off reaches as far as itself. -/
theorem reachesPast_of_cut {rule : Rule} {text tail : List Char}
    (h : (Segment.matched rule text).Cut tail) : ReachesPast text tail :=
  ⟨rule, text, tail, Nat.le_refl _, rfl, h⟩

/-- A text that is cut off together with the run behind it reaches past
itself. -/
theorem reachesPast_of_run {rule : Rule} {text tail : List Char} (p : Char → Bool)
    (h : (Segment.matched rule (text ++ tail.takeWhile p)).Cut (tail.dropWhile p)) :
    ReachesPast text tail := by
  refine ⟨rule, _, _, ?_, ?_, h⟩
  · simp
  · rw [List.append_assoc, List.takeWhile_append_dropWhile]

theorem isDigits_append_takeWhile {digits : List Char} (h : IsDigits digits) (tail : List Char) :
    IsDigits (digits ++ tail.takeWhile Char.isDigit) := by
  refine ⟨by simp [h.1], ?_⟩
  rw [List.forall_mem_append]
  exact ⟨h.2, fun _ => of_mem_takeWhile⟩

theorem reachesPast_digits {digits : List Char} (h : IsDigits digits) (tail : List Char) :
    ReachesPast digits tail := by
  have hrun := isDigits_append_takeWhile h tail
  have hstop := halts_dropWhile Char.isDigit tail
  by_cases hpoint : HaltsWhole (tail.dropWhile Char.isDigit)
  · exact reachesPast_of_run _ (.whole hrun hpoint)
  · -- a point and a digit follow, so the number has a fraction
    simp only [HaltsWhole, hstop, true_and, not_forall] at hpoint
    obtain ⟨d, rest, hdrop, hd⟩ := hpoint
    rw [Bool.not_eq_false] at hd
    have hfraction : IsDigits ([d] ++ rest.takeWhile Char.isDigit) :=
      isDigits_append_takeWhile ⟨by simp, by simpa using hd⟩ rest
    refine ⟨_, _, _, ?_, ?_, .decimal hrun hfraction (halts_dropWhile _ rest)⟩
    · simp
    · have hsplit := List.takeWhile_append_dropWhile (p := Char.isDigit) (l := tail)
      rw [hdrop] at hsplit
      simpa [List.takeWhile_append_dropWhile] using hsplit

/-- **A source that starts with a text of a rule starts with a cut that is
no shorter.** -/
theorem exists_cut_of_spells {rule : Rule} {text : List Char} (h : rule.Spells text)
    (tail : List Char) : ReachesPast text tail := by
  cases spells_iff_cut_nil.1 h with
  | mark hkind => exact reachesPast_of_cut (.mark hkind)
  | @alone c _ _ _ hkinds =>
    rcases halts_or_eq_cons '=' tail with hstop | ⟨rest, rfl⟩
    · exact reachesPast_of_cut (.alone hkinds hstop)
    · -- the operator is only the start of its compound
      exact ⟨_, [c, '='], rest, by simp, rfl, .extended hkinds⟩
  | extended hkinds => exact reachesPast_of_cut (.extended hkinds)
  | slash =>
    rcases halts_or_eq_cons '/' tail with hstop | ⟨rest, rfl⟩
    · exact reachesPast_of_cut (.slash hstop)
    · -- and the slash the start of a comment
      refine ⟨_, _, _, ?_, ?_, .comment (not_mem_takeWhile_bne '\n' rest) (halts_dropWhile _ rest)⟩
      · simp
      · simp [List.takeWhile_append_dropWhile]
  | @comment body _ hbody =>
    have hrun : '\n' ∉ body ++ tail.takeWhile (· != '\n') := by
      rw [List.mem_append, not_or]
      exact ⟨hbody, not_mem_takeWhile_bne '\n' tail⟩
    exact reachesPast_of_run (· != '\n') (.comment hrun (halts_dropWhile _ tail))
  | string hbody => exact reachesPast_of_cut (.string hbody)
  | newline => exact reachesPast_of_cut .newline
  | blank hc => exact reachesPast_of_cut (.blank hc)
  | whole hdigits => exact reachesPast_digits hdigits tail
  | @decimal whole fraction _ hwhole hfraction =>
    have hrun := isDigits_append_takeWhile hfraction tail
    refine ⟨_, _, _, ?_, ?_, .decimal hwhole hrun (halts_dropWhile _ tail)⟩
    · simp
    · simp [List.takeWhile_append_dropWhile]
  | @word text _ hword =>
    cases text with
    | nil => exact hword.elim
    | cons c text =>
      have hrun : IsWord (c :: text ++ tail.takeWhile isWordPart) :=
        ⟨hword.1, List.forall_mem_append.2 ⟨hword.2, fun _ => of_mem_takeWhile⟩⟩
      exact reachesPast_of_run isWordPart (.word hrun (halts_dropWhile _ tail))

/-! ## Cuts are longest matches -/

/-- What a source starts with under any rule is no longer than its first
cut, and there is nothing of the kind where the first cut is a fault. -/
theorem Rule.Starts.exists_matched {rule : Rule} {text : List Char} {s : Segment}
    {after : List Char} (h : rule.Starts text (s.text ++ after)) (hcut : s.Cut after) :
    ∃ (other : Rule) (longer : List Char),
      s = .matched other longer ∧ text.length ≤ longer.length := by
  obtain ⟨hspells, tail, htail⟩ := h
  obtain ⟨other, longer, rest, hlength, hsource, hother⟩ := exists_cut_of_spells hspells tail
  have hsame := hcut.unique hother (htail.symm.trans hsource.symm)
  exact ⟨other, longer, hsame.1, hlength⟩

/-- **A cut is a longest match.** -/
theorem longest_of_cut {rule : Rule} {text after : List Char}
    (h : (Segment.matched rule text).Cut after) : rule.Longest text (text ++ after) := by
  refine ⟨⟨spells_of_cut h, List.prefix_append _ _⟩, fun other longer hstarts => ?_⟩
  obtain ⟨_, _, hsame, hlength⟩ := hstarts.exists_matched h
  cases hsame
  exact hlength

/-- **Where a fault is cut off, no rule has a text.** -/
theorem noRule_of_cut {s : Segment} {after : List Char} (h : s.Cut after)
    (hfault : ∀ rule text, s ≠ .matched rule text) : NoRule (s.text ++ after) := by
  intro rule text hstarts
  obtain ⟨other, longer, hsame, -⟩ := hstarts.exists_matched h
  exact hfault other longer hsame

/-- A longest match is a cut: the cut there is reaches no further, and so
is of the same text. -/
theorem cut_of_longest {rule : Rule} {text after : List Char}
    (h : rule.Longest text (text ++ after)) : (Segment.matched rule text).Cut after := by
  obtain ⟨⟨hspells, -⟩, hmax⟩ := h
  obtain ⟨other, longer, rest, hlength, hsource, hcut⟩ := exists_cut_of_spells hspells after
  have hother := spells_of_cut hcut
  have hle := hmax other longer ⟨hother, hsource ▸ List.prefix_append _ _⟩
  -- the two texts start one source and are of one length
  obtain ⟨rfl, rfl⟩ := List.append_inj hsource (Nat.le_antisymm hle hlength)
  rw [hspells.unique hother]
  exact hcut

theorem ne_quote_of_cut {c : Char} {after : List Char} (h : (Segment.stray c).Cut after) :
    c ≠ '"' := by
  rintro rfl
  cases h with
  | stray hc => exact absurd hc (by decide)

/-- Where no rule applies the first cut is one of the two faults, and the
first character tells which. -/
theorem cut_of_noRule {c : Char} {rest : List Char} (h : NoRule (c :: rest)) :
    c = '"' ∧ (Segment.openString (c :: rest)).Cut [] ∨ c ≠ '"' ∧ (Segment.stray c).Cut rest := by
  have hcut := Segment.cut_first c rest
  have hsource := Segment.text_first_append c rest
  generalize Segment.first c rest = cut at hcut hsource
  obtain ⟨s, after⟩ := cut
  cases s with
  | matched rule text => exact (h rule text ⟨spells_of_cut hcut, after, hsource⟩).elim
  | openString text =>
    cases hcut with
    | openString hbody =>
      cases hsource.symm.trans (List.append_nil _)
      exact .inl ⟨rfl, .openString hbody⟩
  | stray d => cases hsource; exact .inr ⟨ne_quote_of_cut hcut, hcut⟩

/-! ## The segments of a source -/

/-- The segments a source is cut into are those it falls into. -/
theorem segmented_segments (source : List Char) : Segmented source (segments source) := by
  refine segments_induction .nil ?cut source
  intro s after hcut ih
  cases s with
  | matched rule text => exact .matched (longest_of_cut hcut) ih
  | openString text =>
    have hnone := noRule_of_cut hcut (by simp)
    cases hcut with
    | openString =>
      rw [List.append_nil] at hnone ⊢
      rw [segments_nil]
      exact .openString hnone
  | stray c =>
    have hnone := noRule_of_cut hcut (by simp)
    exact .stray (ne_quote_of_cut hcut) hnone ih

/-- And it falls into no others. -/
theorem Segmented.eq_segments {source : List Char} {segs : List Segment}
    (h : Segmented source segs) : segs = segments source := by
  induction h with
  | nil => exact segments_nil.symm
  | matched hlongest _ ih => rw [ih]; exact (segments_of_cut (cut_of_longest hlongest)).symm
  | @openString rest hnone =>
    obtain ⟨-, hcut⟩ | ⟨hne, -⟩ := cut_of_noRule hnone
    · have hsegs := segments_of_cut hcut
      rw [List.append_nil, segments_nil] at hsegs
      exact hsegs.symm
    · exact absurd rfl hne
  | @stray c rest _ hc hnone _ ih =>
    obtain ⟨hquote, -⟩ | ⟨-, hcut⟩ := cut_of_noRule hnone
    · exact absurd hquote hc
    · rw [ih]
      exact (segments_of_cut hcut).symm

/-- **A source is segmented in one way**, which is the one it is scanned in. -/
theorem segmented_iff {source : List Char} {segs : List Segment} :
    Segmented source segs ↔ segs = segments source :=
  ⟨fun h => h.eq_segments, fun h => h ▸ segmented_segments source⟩

/-! ## The tokens of a source -/

/-- The token of a segment that ends on this line, if it is of a token's
rule. -/
def Segment.token? (line : Nat) : Segment → Option Token
  | matched (.token kind) text => some (.ofLexeme kind text line)
  | _ => none

/-- The tokens of segments that stand behind a text, each on line 1 plus
the newlines up to its end. -/
def tokensBehind (before : List Char) : List Segment → List Token
  | [] => []
  | s :: rest =>
    (s.token? (1 + (before ++ s.text).count '\n')).toList ++ tokensBehind (before ++ s.text) rest

theorem filterMap_event (line : Nat) (s : Segment) :
    (s.event? line).toList.filterMap ScanEvent.token? = (s.token? line).toList := by
  rcases s with ⟨_ | _ | _ | _, _⟩ | _ | _ <;> rfl

theorem filterMap_events (before : List Char) (segs : List Segment) :
    (events (1 + before.count '\n') segs).filterMap ScanEvent.token? =
      tokensBehind before segs := by
  induction segs generalizing before with
  | nil => rfl
  | cons s rest ih =>
    have hline : 1 + before.count '\n' + s.newlines = 1 + (before ++ s.text).count '\n' := by
      rw [List.count_append, Segment.newlines, Nat.add_assoc]
    rw [events, tokensBehind, hline, List.filterMap_append, filterMap_event, ih]

/-- **A scan reads the longest matches.** A source falls into segments in
one way, none of them empty and all of them together the source, and what
the scan gives before its end token are the tokens of these segments. -/
theorem scan_longestMatch (source : String) :
    ∃ segs : List Segment, (∀ others, Segmented source.toList others ↔ others = segs) ∧
      segs.flatMap Segment.text = source.toList ∧ (∀ s ∈ segs, s.text ≠ []) ∧
      (scan source).tokens =
        tokensBehind [] segs ++ [.eof (1 + source.toList.count '\n')] := by
  refine ⟨segments source.toList, fun _ => segmented_iff, flatMap_text_segments _,
    fun s hs => ?_, ?_⟩
  · obtain ⟨after, hcut⟩ := exists_cut_of_mem_segments hs
    exact hcut.text_ne_nil
  · rw [Scan.tokens, scan, lastLine_scanChars, Scan.lexed, ← filterMap_events]
    rfl

end LoxFront
