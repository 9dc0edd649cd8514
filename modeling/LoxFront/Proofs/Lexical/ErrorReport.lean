import LoxFront.Proofs.Lexical.Stretch
/-!
# The errors of a scan

Which errors a source has can be told without cutting it: read it a
character at a time, and each one in code that is outside the alphabet is
an error, and so is a string that is open at the end. `modeErrors` does
this, and here it is shown to find the errors of the scan
(`errors_scanChars`), segment by segment. From it follows the exact report:
one entry for each such character, at the line its place has in the source,
and the open string last.
-/

namespace LoxFront

theorem lineAfter_add_count (line : Nat) (c : Char) (text : List Char) :
    lineAfter line c + text.count '\n' = line + (c :: text).count '\n' := by
  by_cases hc : c = '\n'
  · simp only [lineAfter, hc, if_true, List.count_cons_self]
    omega
  · simp [lineAfter, hc]

theorem modeErrors_cons_of_quiet {mode : Mode} {c : Char} (line : Nat) (rest : List Char)
    (h : ¬ (mode = .code ∧ inAlphabet c = false)) :
    modeErrors mode line (c :: rest) = modeErrors (mode.after c rest) (lineAfter line c) rest := by
  rw [modeErrors, if_neg h, List.nil_append]

/-- A text over which the mode stays the same, and in which nothing is an
error: only its newlines count. -/
theorem modeErrors_run {mode : Mode} {text : List Char} (line : Nat) (rest : List Char)
    (hstay : ∀ c ∈ text, ∀ tail, mode.after c tail = mode)
    (hquiet : ∀ c ∈ text, ¬ (mode = .code ∧ inAlphabet c = false)) :
    modeErrors mode line (text ++ rest) = modeErrors mode (line + text.count '\n') rest := by
  induction text generalizing line with
  | nil => rfl
  | cons c text ih =>
    rw [List.forall_mem_cons] at hstay hquiet
    rw [List.cons_append, modeErrors_cons_of_quiet line _ hquiet.1, hstay.1,
      ih _ hstay.2 hquiet.2, lineAfter_add_count]

/-- A comment ends where a newline or nothing follows, and there it is the
same to be in code. -/
theorem modeErrors_comment_end {after : List Char} (line : Nat) (h : Halts (· != '\n') after) :
    modeErrors .comment line after = modeErrors .code line after := by
  cases after with
  | nil => rfl
  | cons c rest =>
    have hc : c = '\n' := by simpa using h
    subst hc
    rfl

/-- The errors of a segment that ends on this line. -/
def Segment.errors (line : Nat) (s : Segment) : List ScanError :=
  (s.event? line).toList.filterMap ScanEvent.error?

theorem errors_matched (line : Nat) (rule : Rule) (text : List Char) :
    (Segment.matched rule text).errors line = [] := by
  cases rule <;> rfl

/-- **The modes find the errors of each segment**, and are in code again
behind it. -/
theorem modeErrors_stretch {s : Segment} {after : List Char} (line : Nat) (h : s.Stretch after) :
    modeErrors .code line (s.text ++ after) =
      s.errors (line + s.newlines) ++ modeErrors .code (line + s.newlines) after := by
  cases h with
  | plain hplain =>
    rw [errors_matched, List.nil_append]
    refine modeErrors_run line after (fun c hc tail => after_of_isPlain tail (hplain c hc)) ?_
    rintro c hc ⟨-, hstray⟩
    rw [inAlphabet_of_isPlain (hplain c hc)] at hstray
    cases hstray
  | slash hstop =>
    rw [errors_matched, List.nil_append, Segment.text, List.singleton_append,
      modeErrors_cons_of_quiet line after (by decide), after_slash hstop]
    rfl
  | @comment body _ hbody hstop =>
    -- the first of the two slashes opens the comment, and the second is in it
    have hslashes : modeErrors .code line ('/' :: '/' :: (body ++ after)) =
        modeErrors .comment line (body ++ after) := rfl
    have hcount : ('/' :: '/' :: body).count '\n' = 0 := by
      simp [List.count_eq_zero.2 hbody]
    rw [errors_matched, List.nil_append, Segment.newlines, Segment.text, hcount, Nat.add_zero,
      List.cons_append, List.cons_append, hslashes,
      modeErrors_run line after (after_comment hbody) (by simp), List.count_eq_zero.2 hbody]
    exact modeErrors_comment_end line hstop
  | @string body _ hbody =>
    have hopen : modeErrors .code line ('"' :: (body ++ '"' :: after)) =
        modeErrors .string line (body ++ '"' :: after) := rfl
    have hcount : ('"' :: (body ++ ['"'])).count '\n' = body.count '\n' := by simp
    rw [errors_matched, List.nil_append, Segment.newlines, Segment.text, hcount,
      List.cons_append, List.append_assoc, List.singleton_append, hopen,
      modeErrors_run line _ (after_string hbody) (by simp)]
    rfl
  | @openString body hbody =>
    have hopen : modeErrors .code line ('"' :: (body ++ [])) =
        modeErrors .string line (body ++ []) := rfl
    have hcount : ('"' :: body).count '\n' = body.count '\n' := by simp
    rw [Segment.newlines, Segment.text, hcount, List.cons_append, hopen,
      modeErrors_run line [] (after_string hbody) (by simp)]
    rfl
  | @stray c _ hc =>
    rw [Segment.text, List.singleton_append, modeErrors, if_pos ⟨rfl, hc⟩,
      after_of_not_inAlphabet after hc]
    have hline : c ≠ '\n' := by rintro rfl; exact absurd hc (by decide)
    have hcount : (Segment.stray c).newlines = 0 := by simp [Segment.newlines, Segment.text, hline]
    rw [hcount, lineAfter, if_neg hline]
    rfl

/-- **The errors of a scan are those the modes find.** -/
theorem errors_scanChars (source : List Char) :
    (scanChars source).errors = modeErrors .code 1 source := by
  -- the line must be free, since the induction moves it along
  suffices h : ∀ line, (events line (segments source)).filterMap ScanEvent.error? =
      modeErrors .code line source from h 1
  refine segments_induction (motive := fun source segs => ∀ line,
    (events line segs).filterMap ScanEvent.error? = modeErrors .code line source)
    ?nil ?cut source
  case nil =>
    intro line
    rfl
  case cut =>
    intro s after hcut ih line
    rw [events, List.filterMap_append, ih, modeErrors_stretch line hcut.stretch]
    rfl

example : modeErrors .code 1 "@ // \" #\n\"// #\" $ / \"\n".toList =
    [.unexpectedCharacter 1 '@', .unexpectedCharacter 2 '$', .unterminatedString 3] := by decide

/-! ## Places -/

/-- The mode in which the character at this place is read. Behind the last
one it is the mode at the end. -/
def modeAt (mode : Mode) : List Char → Nat → Mode
  | c :: rest, i + 1 => modeAt (mode.after c rest) rest i
  | _, _ => mode

/-- The entry of a character outside the alphabet at this place. -/
def strayEntry (line : Nat) (source : List Char) (place : Nat) : Nat × String :=
  (line + (source.take place).count '\n', "Unexpected character")

/-- The entry of a string that is open at the end. -/
def openEntries (mode : Mode) (line : Nat) (source : List Char) : List (Nat × String) :=
  if modeAt mode source source.length = .string then
    [(line + source.count '\n', "Unterminated string.")]
  else []

theorem strayEntry_cons (line : Nat) (c : Char) (rest : List Char) (i : Nat) :
    strayEntry line (c :: rest) (i + 1) = strayEntry (lineAfter line c) rest i := by
  rw [strayEntry, strayEntry, List.take_succ_cons, lineAfter_add_count]

theorem openEntries_cons (mode : Mode) (line : Nat) (c : Char) (rest : List Char) :
    openEntries mode line (c :: rest) =
      openEntries (mode.after c rest) (lineAfter line c) rest := by
  rw [openEntries, openEntries, List.length_cons, modeAt, lineAfter_add_count]

/-- The errors of the modes, by place instead of along the way. -/
theorem map_modeErrors (mode : Mode) (line : Nat) (source : List Char) :
    (modeErrors mode line source).map (fun e => (e.line, e.message)) =
      (source.zipIdx.filter fun p => modeAt mode source p.2 = .code ∧ inAlphabet p.1 = false).map
        (fun p => strayEntry line source p.2) ++ openEntries mode line source := by
  induction source generalizing mode line with
  | nil => cases mode <;> rfl
  | cons c rest ih =>
    have hlater : (fun p : Char × Nat => strayEntry line (c :: rest) p.2) ∘ Prod.map id (· + 1) =
        fun p => strayEntry (lineAfter line c) rest p.2 :=
      funext fun p => strayEntry_cons line c rest p.2
    rw [modeErrors, List.map_append, ih, List.zipIdx_cons', openEntries_cons, ← List.append_assoc]
    congr 1
    by_cases hc : mode = .code ∧ inAlphabet c = false
    · rw [if_pos hc, List.filter_cons_of_pos (by exact decide_eq_true hc), List.filter_map,
        List.map_cons, List.map_cons, List.map_map, hlater]
      rfl
    · rw [if_neg hc, List.filter_cons_of_neg (by exact fun h => hc (of_decide_eq_true h)),
        List.filter_map, List.map_map, hlater]
      rfl

/-- **The report of a scan is exact.** It has one entry for each character
that is read in code and is outside the alphabet, in their order and with
the line each stands on, and behind them an entry for the string that is
open at the end, if one is. -/
theorem scan_report (source : String) :
    (scan source).errors.map (fun e => (e.line, e.message)) =
      ((source.toList.zipIdx.filter fun p =>
          modeAt .code source.toList p.2 = .code ∧ inAlphabet p.1 = false).map fun p =>
        (1 + (source.toList.take p.2).count '\n', "Unexpected character")) ++
      (if modeAt .code source.toList source.toList.length = .string then
        [(1 + source.toList.count '\n', "Unterminated string.")] else []) := by
  rw [scan, errors_scanChars, map_modeErrors]
  rfl

end LoxFront
