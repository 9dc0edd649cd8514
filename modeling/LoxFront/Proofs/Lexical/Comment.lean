import LoxFront.Proofs.Lexical.Line
import LoxFront.Proofs.Lexical.Stretch
/-!
# Sources without their comments

Where comments are can be told by modes, a character at a time, and
`withoutComments` deletes them so. What is deleted is the comments the scan
sees, and what is left is cut where the source is cut
(`segments_withoutComments`): a comment ends before a newline or at the end,
and no segment goes on into either, so nothing grows together where a
comment was. As a comment is no event and has no newline, the scan is the
same.
-/

namespace LoxFront

/-- Whether a segment is a comment. -/
def Segment.isComment : Segment → Bool
  | matched .comment _ => true
  | _ => false

theorem exists_text_of_isComment {s : Segment} (h : s.isComment = true) :
    ∃ text, s = .matched .comment text := by
  rcases s with ⟨_ | _ | _ | _, text⟩ | _ | _ <;> cases h
  exact ⟨text, rfl⟩

/-! ## Comments are deleted -/

/-- A character is kept if no comment is open behind it. -/
theorem withoutComments_cons {mode : Mode} {c : Char} {rest : List Char}
    (h : mode.after c rest ≠ .comment) :
    withoutComments mode (c :: rest) = c :: withoutComments (mode.after c rest) rest := by
  rw [withoutComments, if_neg h]

/-- In a comment all is left out up to the newline. -/
theorem withoutComments_body {body : List Char} (h : '\n' ∉ body) (after : List Char) :
    withoutComments .comment (body ++ after) = withoutComments .comment after := by
  induction body with
  | nil => rfl
  | cons c body ih =>
    rw [List.cons_append, withoutComments, if_pos (after_comment h c List.mem_cons_self _)]
    exact ih fun hmem => h (List.mem_cons_of_mem c hmem)

/-- A comment ends where a newline or nothing follows, and there it is the
same to be in code. -/
theorem withoutComments_end {after : List Char} (h : Halts (· != '\n') after) :
    withoutComments .comment after = withoutComments .code after := by
  cases after with
  | nil => rfl
  | cons c rest =>
    have hc : c = '\n' := by simpa using h
    subst hc
    rfl

/-- A whole comment is left out, up to its newline. -/
theorem withoutComments_comment {body after : List Char} (hbody : '\n' ∉ body)
    (hstop : Halts (· != '\n') after) :
    withoutComments .code ('/' :: '/' :: (body ++ after)) = withoutComments .code after := by
  have hslashes : withoutComments .code ('/' :: '/' :: (body ++ after)) =
      withoutComments .comment (body ++ after) := rfl
  rw [hslashes, withoutComments_body hbody, withoutComments_end hstop]

/-! ## All else is kept -/

/-- A text over which the mode stays the same, and is not a comment's. -/
theorem withoutComments_run {mode : Mode} {text : List Char} (hmode : mode ≠ .comment)
    (hstay : ∀ c ∈ text, ∀ tail, mode.after c tail = mode) (rest : List Char) :
    withoutComments mode (text ++ rest) = text ++ withoutComments mode rest := by
  induction text with
  | nil => rfl
  | cons c text ih =>
    rw [List.forall_mem_cons] at hstay
    have hafter : mode.after c (text ++ rest) = mode := hstay.1 _
    rw [List.cons_append, withoutComments_cons (hafter.symm ▸ hmode), hafter, ih hstay.2]
    rfl

/-- **A segment that is no comment is kept.** -/
theorem withoutComments_of_cut {s : Segment} {after : List Char} (h : s.Cut after)
    (hs : s.isComment = false) :
    withoutComments .code (s.text ++ after) = s.text ++ withoutComments .code after := by
  cases h.stretch with
  | plain hplain =>
    exact withoutComments_run (by decide)
      (fun c hc tail => after_of_isPlain tail (hplain c hc)) after
  | slash hstop =>
    have hafter := after_slash hstop
    rw [Segment.text, List.singleton_append, withoutComments_cons (by rw [hafter]; decide), hafter]
    rfl
  | comment => cases hs
  | @string body _ hbody =>
    have hopen : withoutComments .code ('"' :: (body ++ '"' :: after)) =
        '"' :: withoutComments .string (body ++ '"' :: after) := rfl
    have hclose : withoutComments .string ('"' :: after) = '"' :: withoutComments .code after := rfl
    rw [Segment.text, List.cons_append, List.append_assoc, List.singleton_append, hopen,
      withoutComments_run (by decide) (after_string hbody), hclose]
    simp
  | @openString body hbody =>
    have hopen : withoutComments .code ('"' :: (body ++ [])) =
        '"' :: withoutComments .string (body ++ []) := rfl
    rw [Segment.text, List.cons_append, hopen,
      withoutComments_run (by decide) (after_string hbody)]
    rfl
  | @stray c _ hc =>
    have hafter := after_of_not_inAlphabet after hc
    rw [Segment.text, List.singleton_append, withoutComments_cons (by rw [hafter]; decide), hafter]
    rfl

/-! ## What is left is cut as before -/

theorem head_withoutComments_comment (text : List Char) :
    ∀ c ∈ (withoutComments .comment text).head?, c = '\n' := by
  induction text with
  | nil => simp [withoutComments]
  | cons d rest ih =>
    rw [withoutComments]
    split
    · exact ih
    · next hd =>
      rintro c ⟨⟩
      exact Decidable.of_not_not fun hne => hd (if_neg hne)

/-- A text without its comments begins as it does, or with the newline that
ends the comment at its start. -/
theorem beginsLike_withoutComments (text : List Char) :
    BeginsLike text (withoutComments .code text) := by
  cases text with
  | nil => simp [BeginsLike, withoutComments]
  | cons c rest =>
    rw [withoutComments]
    split
    · exact fun d hd => .inl (head_withoutComments_comment rest d hd)
    · exact beginsLike_cons c rest _

/-- **A segment ends where it does, without the comments behind it.** -/
theorem cut_withoutComments {s : Segment} {after : List Char} (h : s.Cut after)
    (hs : s.isComment = false) : s.Cut (withoutComments .code after) := by
  by_cases hopen : ∃ text, s = .openString text
  · -- nothing stands behind it
    obtain ⟨text, rfl⟩ := hopen
    cases h with
    | openString hbody => exact .openString hbody
  · rw [not_exists] at hopen
    refine h.of_beginsLike hopen (beginsLike_withoutComments after) ?_
    rintro rest rfl
    exact ⟨withoutComments .code rest, rfl, fun hrest =>
      hrest.of_beginsLike (beginsLike_withoutComments rest) (by decide)⟩

/-- **A source without its comments is cut into its segments without the
comments among them.** -/
theorem segments_withoutComments (source : List Char) :
    segments (withoutComments .code source) = (segments source).filter fun s => !s.isComment := by
  refine segments_induction (motive := fun source segs =>
    segments (withoutComments .code source) = segs.filter fun s => !s.isComment) ?nil ?cut source
  case nil => exact segments_nil
  case cut =>
    intro s after hcut ih
    cases hs : s.isComment with
    | true =>
      obtain ⟨text, rfl⟩ := exists_text_of_isComment hs
      cases hcut with
      | comment hbody hstop =>
        rw [List.filter_cons_of_neg (by simp [hs]), ← ih, ← withoutComments_comment hbody hstop]
        rfl
    | false =>
      rw [List.filter_cons_of_pos (by simp [hs]), withoutComments_of_cut hcut hs,
        segments_of_cut (cut_withoutComments hcut hs), ih]

/-! ## Comments are not noticed -/

theorem event?_of_isComment {s : Segment} (h : s.isComment = true) (line : Nat) :
    s.event? line = none := by
  obtain ⟨text, rfl⟩ := exists_text_of_isComment h
  rfl

/-- A comment has no newline, so leaving it out moves no line. -/
theorem newlines_of_isComment {s : Segment} {after : List Char} (hcut : s.Cut after)
    (h : s.isComment = true) : s.newlines = 0 := by
  obtain ⟨text, rfl⟩ := exists_text_of_isComment h
  exact (counted_of_cut hcut).symm

/-- Segments without newline and event do not change what the others are. -/
theorem events_filter {p : Segment → Bool} {segs : List Segment}
    (h : ∀ s ∈ segs, p s = false → s.newlines = 0 ∧ ∀ line, s.event? line = none) (line : Nat) :
    events line (segs.filter p) = events line segs ∧
      lastLine line (segs.filter p) = lastLine line segs := by
  induction segs generalizing line with
  | nil => exact ⟨rfl, rfl⟩
  | cons s rest ih =>
    rw [List.forall_mem_cons] at h
    cases hs : p s with
    | true =>
      obtain ⟨hevents, hlast⟩ := ih h.2 (line + s.newlines)
      rw [List.filter_cons_of_pos hs, events, events, lastLine, lastLine, hevents, hlast]
      exact ⟨rfl, rfl⟩
    | false =>
      obtain ⟨hnewlines, hevent⟩ := h.1 hs
      rw [List.filter_cons_of_neg (by simp [hs]), events, lastLine, hevent, hnewlines]
      exact ih h.2 line

/-- **A source and what is left of it without comments have one scan.** -/
theorem scanChars_withoutComments (source : List Char) :
    scanChars (withoutComments .code source) = scanChars source := by
  have hsilent : ∀ s ∈ segments source, (!s.isComment) = false →
      s.newlines = 0 ∧ ∀ line, s.event? line = none := by
    intro s hs hcomment
    rw [Bool.not_eq_false'] at hcomment
    obtain ⟨after, hcut⟩ := exists_cut_of_mem_segments hs
    exact ⟨newlines_of_isComment hcut hcomment, event?_of_isComment hcomment⟩
  obtain ⟨hevents, hlast⟩ := events_filter hsilent 1
  rw [scanChars, scanChars, segments_withoutComments, hevents, hlast]

/-- **Comments are invisible.** A source without its comments has the same
tokens, with their lexemes, values and lines, and the same errors, with
their lines and in their order, as the source has. What is left is the
segments of the source that are no comments, one behind the other, and it
is cut into these again. -/
theorem scan_withoutComments (source : String) :
    (scan (.ofList (withoutComments .code source.toList))).tokens = (scan source).tokens ∧
      (scan (.ofList (withoutComments .code source.toList))).errors = (scan source).errors ∧
      withoutComments .code source.toList =
        ((segments source.toList).filter fun s => !s.isComment).flatMap Segment.text ∧
      segments (withoutComments .code source.toList) =
        (segments source.toList).filter fun s => !s.isComment := by
  have hscan : scan (.ofList (withoutComments .code source.toList)) = scan source := by
    rw [scan, String.toList_ofList, scanChars_withoutComments]
    rfl
  have hsegs := segments_withoutComments source.toList
  refine ⟨by rw [hscan], by rw [hscan], ?_, hsegs⟩
  rw [← hsegs, flatMap_text_segments]

/-- Slashes in a string stay, a slash before a comment is part of it, and a
quote in a comment opens nothing. -/
example : withoutComments .code "1.//5\n\"//\" /// \"\n2/ /".toList =
    "1.\n\"//\" \n2/ /".toList := by
  decide

end LoxFront
