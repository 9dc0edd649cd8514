import LoxFront.Lexical.Grammar
/-!
# Where a source is cut

`Segment.first` computes a segment from the source before it; `s.Cut after`
says of a segment `s` and the text behind it that the source is cut between
the two, form by form. The relation holds of the first segment and of
nothing else (`first_eq_iff`), so a proof about a scan can go by the forms
of `Cut` and never opens `Segment.first`. What a form asks of the text
behind it is never more than its first character, or two behind a number.

Runs over a whole source use `segments_induction`, where each step puts one
segment before a source that is cut already.
-/

namespace LoxFront

/-- A text that a run of characters of this class does not go on into. -/
def Halts (p : Char → Bool) (after : List Char) : Prop := ∀ c ∈ after.head?, p c = false

/-- A text that a run of digits does not go on into, neither with a digit
nor with a point and a digit. -/
def HaltsWhole (after : List Char) : Prop :=
  Halts Char.isDigit after ∧
    ∀ (d : Char) (rest : List Char), after = '.' :: d :: rest → d.isDigit = false

/-- **A segment ends here**: this text may stand behind the segment
without being part of it. -/
inductive Segment.Cut : Segment → List Char → Prop
  | mark {c : Char} {kind : TokenKind} {after : List Char} :
      markKind? c = some kind → Cut (.matched (.token kind) [c]) after
  | alone {c : Char} {kind extended : TokenKind} {after : List Char} :
      operatorKinds? c = some (kind, extended) → Halts (· == '=') after →
      Cut (.matched (.token kind) [c]) after
  | extended {c : Char} {alone kind : TokenKind} {after : List Char} :
      operatorKinds? c = some (alone, kind) → Cut (.matched (.token kind) [c, '=']) after
  | slash {after : List Char} :
      Halts (· == '/') after → Cut (.matched (.token .slash) ['/']) after
  /-- A comment goes on to the end of its line. -/
  | comment {body after : List Char} :
      '\n' ∉ body → Halts (· != '\n') after → Cut (.matched .comment ('/' :: '/' :: body)) after
  | string {body after : List Char} :
      '"' ∉ body → Cut (.matched (.token .string) ('"' :: (body ++ ['"']))) after
  /-- Nothing stands behind a string that is not closed. -/
  | openString {body : List Char} : '"' ∉ body → Cut (.openString ('"' :: body)) []
  | newline {after : List Char} : Cut (.matched .newline ['\n']) after
  | blank {c : Char} {after : List Char} : isBlank c = true → Cut (.matched .blank [c]) after
  | whole {digits after : List Char} :
      IsDigits digits → HaltsWhole after → Cut (.matched (.token .number) digits) after
  | decimal {whole fraction after : List Char} :
      IsDigits whole → IsDigits fraction → Halts Char.isDigit after →
      Cut (.matched (.token .number) (whole ++ '.' :: fraction)) after
  | word {text after : List Char} :
      IsWord text → Halts isWordPart after →
      Cut (.matched (.token (Segment.wordKind text)) text) after
  | stray {c : Char} {after : List Char} : inAlphabet c = false → Cut (.stray c) after

/-! ## Runs of characters -/

theorem halts_nil (p : Char → Bool) : Halts p [] := by simp [Halts]

/-- Whether a run goes on is up to the first character alone. -/
@[simp] theorem halts_cons {p : Char → Bool} {c : Char} {rest : List Char} :
    Halts p (c :: rest) ↔ p c = false := by simp [Halts]

theorem haltsWhole_nil : HaltsWhole [] := ⟨halts_nil _, by simp⟩

/-- A run stops where the source left of it starts. -/
theorem halts_dropWhile (p : Char → Bool) (source : List Char) :
    Halts p (source.dropWhile p) := by
  intro c hc
  have hstop := List.head?_dropWhile_not p source
  rw [Option.mem_def.1 hc] at hstop
  simpa using hstop

/-- All of a run is of its class. -/
theorem of_mem_takeWhile {p : Char → Bool} {c : Char} {source : List Char}
    (hc : c ∈ source.takeWhile p) : p c = true :=
  List.all_eq_true.1 (List.all_takeWhile (p := p) (l := source)) c hc

/-- A run in front of a text on which it halts is read to its end and no
further. -/
theorem takeWhile_append_of_halts {p : Char → Bool} {run after : List Char}
    (hrun : ∀ c ∈ run, p c = true) (hafter : Halts p after) : (run ++ after).takeWhile p = run := by
  rw [List.takeWhile_append_of_pos hrun]
  cases after with
  | nil => simp
  | cons c rest => simp [halts_cons.1 hafter]

/-- What is left behind such a run is the text on which it halts. -/
theorem dropWhile_append_of_halts {p : Char → Bool} {run after : List Char}
    (hrun : ∀ c ∈ run, p c = true) (hafter : Halts p after) : (run ++ after).dropWhile p = after := by
  rw [List.dropWhile_append_of_pos hrun]
  cases after with
  | nil => rfl
  | cons c rest => simp [halts_cons.1 hafter]

/-- **A run ends in one place**: two texts that start with runs and are
one have the same run. -/
theorem append_inj_of_halts {p : Char → Bool} {run run' after after' : List Char}
    (hrun : ∀ c ∈ run, p c = true) (hafter : Halts p after) (hrun' : ∀ c ∈ run', p c = true)
    (hafter' : Halts p after') (h : run ++ after = run' ++ after') :
    run = run' ∧ after = after' := by
  have htake := congrArg (List.takeWhile p) h
  have hdrop := congrArg (List.dropWhile p) h
  rw [takeWhile_append_of_halts hrun hafter, takeWhile_append_of_halts hrun' hafter'] at htake
  rw [dropWhile_append_of_halts hrun hafter, dropWhile_append_of_halts hrun' hafter'] at hdrop
  exact ⟨htake, hdrop⟩

/-- A text without a character is a run of the others. -/
theorem bne_of_not_mem {d : Char} {text : List Char} (h : d ∉ text) :
    ∀ c ∈ text, (c != d) = true := by
  intro c hc
  simpa using ne_of_mem_of_not_mem hc h

/-- A run up to a character does not have it. -/
theorem not_mem_takeWhile_bne (d : Char) (source : List Char) : d ∉ source.takeWhile (· != d) :=
  fun hmem => by simpa using of_mem_takeWhile hmem

/-- A text starts with a character, or a run of that character halts there. -/
theorem halts_or_eq_cons (d : Char) (tail : List Char) :
    Halts (· == d) tail ∨ ∃ rest, tail = d :: rest := by
  cases tail with
  | nil => exact .inl (halts_nil _)
  | cons c rest =>
    by_cases hc : c = d
    · exact .inr ⟨rest, by rw [hc]⟩
    · exact .inl (halts_cons.2 (beq_eq_false_iff_ne.2 hc))

/-- A run of one character halts before a text that does not start with it. -/
theorem halts_beq {d : Char} {after : List Char} (h : ∀ rest, after = d :: rest → False) :
    Halts (· == d) after :=
  (halts_or_eq_cons d after).resolve_right fun ⟨rest, hrest⟩ => h rest hrest

/-! ## What a character can start -/

namespace Segment

/-- The characters that stand in no word and no number. Each of them
starts segments of a kind of its own. -/
def punctuation : List Char := "()\x7b\x7d,.-+;*!=<>/\" \t\r\n".toList

/-- Marks are punctuation, and so are the operators and blanks below. -/
theorem mem_punctuation_of_mark {c : Char} {kind : TokenKind} (h : markKind? c = some kind) :
    c ∈ punctuation := by
  unfold markKind? at h
  split at h <;> cases h <;> decide

theorem mem_punctuation_of_operator {c : Char} {kinds : TokenKind × TokenKind}
    (h : operatorKinds? c = some kinds) : c ∈ punctuation := by
  unfold operatorKinds? at h
  split at h <;> cases h <;> decide

theorem mem_punctuation_of_isBlank {c : Char} (h : isBlank c = true) : c ∈ punctuation := by
  simp only [isBlank, Bool.or_eq_true, beq_iff_eq] at h
  obtain (rfl | rfl) | rfl := h <;> decide

/-- A class without punctuation has members that are none. -/
theorem not_mem_punctuation {p : Char → Bool} (hp : punctuation.any p = false) {c : Char}
    (hc : p c = true) : c ∉ punctuation :=
  fun hmem => List.any_eq_false.1 hp c hmem hc

/-- Letters and the underscore stand behind the digits. -/
theorem le_toNat_of_isWordStart {c : Char} (h : isWordStart c = true) : 'A'.toNat ≤ c.toNat := by
  rw [isWordStart, Bool.or_eq_true, beq_iff_eq] at h
  rcases h with hletter | rfl
  · rcases (Bool.or_eq_true c.isUpper c.isLower).mp hletter with hupper | hlower
    · exact (of_decide_eq_true hupper).1
    · have hlow : 'a'.val ≤ c.val := of_decide_eq_true ((Bool.and_eq_true _ _).mp hlower).1
      exact Nat.le_trans (by decide) (UInt32.le_iff_toNat_le.1 hlow)
  · decide

/-- No word starts with a digit. -/
theorem isDigit_of_isWordStart {c : Char} (h : isWordStart c = true) : c.isDigit = false := by
  rw [Bool.eq_false_iff]
  intro hdigit
  have hletter := le_toNat_of_isWordStart h
  have hnine : c.toNat ≤ '9'.toNat := (Char.isDigit_iff_toNat.1 hdigit).2
  exact absurd (Nat.le_trans hletter hnine) (by decide)

/-- **What a character of the alphabet can start.** -/
theorem start_of_inAlphabet {c : Char} (h : inAlphabet c = true) :
    (∃ kind, markKind? c = some kind) ∨
    (∃ alone extended, operatorKinds? c = some (alone, extended)) ∨
    c = '/' ∨ c = '"' ∨ c = '\n' ∨ isBlank c = true ∨ c.isDigit = true ∨ isWordStart c = true := by
  simp only [inAlphabet, isWordPart, Bool.or_eq_true, beq_iff_eq, List.contains_iff_mem] at h
  obtain (((hstart | hdigit) | hblank) | hnewline) | hmem := h
  · simp [hstart]
  · simp [hdigit]
  · simp [hblank]
  · simp [hnewline]
  · have hmarks : "()\x7b\x7d,.-+;*!=<>/\"".toList.all fun d =>
        (markKind? d).isSome || (operatorKinds? d).isSome || d == '/' || d == '"' := by decide
    have hc := List.all_eq_true.1 hmarks c hmem
    simp only [Bool.or_eq_true, beq_iff_eq] at hc
    obtain ((hmark | hoperator) | hslash) | hquote := hc
    · exact .inl (Option.isSome_iff_exists.1 hmark)
    · obtain ⟨⟨alone, extended⟩, hkinds⟩ := Option.isSome_iff_exists.1 hoperator
      exact .inr (.inl ⟨alone, extended, hkinds⟩)
    · simp [hslash]
    · simp [hquote]

/-- A mark is a segment of its own, whatever follows it. -/
theorem first_mark {c : Char} {kind : TokenKind} (rest : List Char) (h : markKind? c = some kind) :
    first c rest = (matched (.token kind) [c], rest) := by
  simp [first, h]

/-- What follows the character of an operator decides between its two kinds. -/
theorem first_operator {c : Char} {alone extended : TokenKind} (rest : List Char)
    (h : operatorKinds? c = some (alone, extended)) :
    first c rest = ofOperator c alone extended rest := by
  unfold operatorKinds? at h
  split at h <;> cases h <;> rfl

theorem first_slash (rest : List Char) : first '/' rest = ofSlash rest := rfl

theorem first_quote (rest : List Char) : first '"' rest = ofQuote rest := rfl

theorem first_newline (rest : List Char) : first '\n' rest = (matched .newline ['\n'], rest) := rfl

theorem first_blank {c : Char} (rest : List Char) (h : isBlank c = true) :
    first c rest = (matched .blank [c], rest) := by
  simp only [isBlank, Bool.or_eq_true, beq_iff_eq] at h
  obtain (rfl | rfl) | rfl := h <;> rfl

/-- What is left to be told apart when a character is no punctuation. -/
theorem first_of_not_mem_punctuation {c : Char} (rest : List Char) (h : c ∉ punctuation) :
    first c rest =
      if c.isDigit then ofDigit c rest
      else if isWordStart c then ofLetter c rest
      else (stray c, rest) := by
  have hmark : markKind? c = none :=
    Option.eq_none_iff_forall_ne_some.2 fun _ hk => h (mem_punctuation_of_mark hk)
  have hoperator : operatorKinds? c = none :=
    Option.eq_none_iff_forall_ne_some.2 fun _ hk => h (mem_punctuation_of_operator hk)
  have hblank : isBlank c = false :=
    Bool.eq_false_iff.2 fun hb => h (mem_punctuation_of_isBlank hb)
  have hslash : c ≠ '/' := ne_of_mem_of_not_mem (by decide) h |>.symm
  have hquote : c ≠ '"' := ne_of_mem_of_not_mem (by decide) h |>.symm
  have hnewline : c ≠ '\n' := ne_of_mem_of_not_mem (by decide) h |>.symm
  simp [first, hmark, hoperator, hblank, hslash, hquote, hnewline]

/-- A digit starts a number. -/
theorem first_digit {c : Char} (rest : List Char) (h : c.isDigit = true) :
    first c rest = ofDigit c rest := by
  rw [first_of_not_mem_punctuation rest (not_mem_punctuation (by decide) h), if_pos h]

/-- A letter or an underscore starts a word. -/
theorem first_letter {c : Char} (rest : List Char) (h : isWordStart c = true) :
    first c rest = ofLetter c rest := by
  rw [first_of_not_mem_punctuation rest (not_mem_punctuation (by decide) h), if_neg, if_pos h]
  simp [isDigit_of_isWordStart h]

/-- A character outside the alphabet is a segment of its own, and a fault. -/
theorem first_stray {c : Char} (rest : List Char) (h : inAlphabet c = false) :
    first c rest = (stray c, rest) := by
  have hpunctuation : c ∉ punctuation := fun hmem =>
    Bool.false_ne_true
      (h.symm.trans (List.all_eq_true.1 (by decide : punctuation.all inAlphabet) c hmem))
  have hpart : isWordPart c = false := by
    simp only [inAlphabet, Bool.or_eq_false_iff] at h
    exact h.1.1.1
  have hstart : isWordStart c = false ∧ c.isDigit = false := by simpa [isWordPart] using hpart
  rw [first_of_not_mem_punctuation rest hpunctuation]
  simp [hstart]

/-! ## Segments that are cut off -/

/-- An operator stands alone where no equals sign follows it. -/
theorem ofOperator_alone {c : Char} {kind extended : TokenKind} {after : List Char}
    (h : Halts (· == '=') after) :
    ofOperator c kind extended after = (matched (.token kind) [c], after) := by
  unfold ofOperator
  split
  · simp at h
  · rfl

/-- A slash stands alone where no second one follows it. -/
theorem ofSlash_alone {after : List Char} (h : Halts (· == '/') after) :
    ofSlash after = (matched (.token .slash) ['/'], after) := by
  unfold ofSlash
  split
  · simp at h
  · rfl

/-- Two slashes take the rest of their line with them, but not its newline. -/
theorem ofSlash_comment {body after : List Char} (hbody : '\n' ∉ body)
    (h : Halts (· != '\n') after) :
    ofSlash ('/' :: (body ++ after)) = (matched .comment ('/' :: '/' :: body), after) := by
  rw [ofSlash, takeWhile_append_of_halts (bne_of_not_mem hbody) h,
    dropWhile_append_of_halts (bne_of_not_mem hbody) h]

/-- A string ends at the next quote. -/
theorem ofQuote_string {body after : List Char} (hbody : '"' ∉ body) :
    ofQuote (body ++ '"' :: after) =
      (matched (.token .string) ('"' :: (body ++ ['"'])), after) := by
  have hstop : Halts (· != '"') ('"' :: after) := by simp
  rw [ofQuote, takeWhile_append_of_halts (bne_of_not_mem hbody) hstop,
    dropWhile_append_of_halts (bne_of_not_mem hbody) hstop]

/-- Without a quote to end it, a string takes the rest of the source. -/
theorem ofQuote_open {body : List Char} (hbody : '"' ∉ body) :
    ofQuote body = (openString ('"' :: body), []) := by
  have hdrop := dropWhile_append_of_halts (bne_of_not_mem hbody) (halts_nil (· != '"'))
  rw [List.append_nil] at hdrop
  rw [ofQuote, hdrop]

/-- A run of digits is a number where it halts and no fraction follows it. -/
theorem ofDigit_whole {c : Char} {digits after : List Char}
    (hdigits : ∀ d ∈ digits, d.isDigit = true) (h : HaltsWhole after) :
    ofDigit c (digits ++ after) = (matched (.token .number) (c :: digits), after) := by
  unfold ofDigit
  rw [takeWhile_append_of_halts hdigits h.1, dropWhile_append_of_halts hdigits h.1]
  split
  · next d rest => rw [h.2 d rest rfl]; rfl
  · rfl

/-- With a point and a second run behind it, a run of digits is a number up to
the end of the second. -/
theorem ofDigit_decimal {c d : Char} {digits fraction after : List Char}
    (hdigits : ∀ e ∈ digits, e.isDigit = true) (hd : d.isDigit = true)
    (hfraction : ∀ e ∈ fraction, e.isDigit = true) (h : Halts Char.isDigit after) :
    ofDigit c (digits ++ '.' :: d :: (fraction ++ after)) =
      (matched (.token .number) (c :: digits ++ '.' :: d :: fraction), after) := by
  have hstop : Halts Char.isDigit ('.' :: d :: (fraction ++ after)) := by simp
  unfold ofDigit
  rw [takeWhile_append_of_halts hdigits hstop, dropWhile_append_of_halts hdigits hstop]
  simp [hd, takeWhile_append_of_halts hfraction h, dropWhile_append_of_halts hfraction h]

/-- A word goes on to the last character that words have, and all of it is
looked up for its kind. -/
theorem ofLetter_word {c : Char} {text after : List Char} (htext : ∀ d ∈ text, isWordPart d = true)
    (h : Halts isWordPart after) :
    ofLetter c (text ++ after) =
      (matched (.token (wordKind (c :: text))) (c :: text), after) := by
  simp only [ofLetter]
  rw [takeWhile_append_of_halts htext h, dropWhile_append_of_halts htext h]

/-- **A cut is the first one**: where a segment may end, `first` ends it. -/
theorem first_of_cut {s : Segment} {after : List Char} (h : s.Cut after) :
    ∃ c rest, s.text ++ after = c :: rest ∧ first c rest = (s, after) := by
  cases h with
  | mark hkind => exact ⟨_, after, rfl, first_mark after hkind⟩
  | @alone c _ _ _ hkinds hstop =>
    exact ⟨c, after, rfl, (first_operator after hkinds).trans (ofOperator_alone hstop)⟩
  | @extended c _ _ _ hkinds =>
    exact ⟨c, '=' :: after, rfl, first_operator ('=' :: after) hkinds⟩
  | slash hstop => exact ⟨'/', after, rfl, (first_slash after).trans (ofSlash_alone hstop)⟩
  | @comment body _ hbody hstop =>
    exact ⟨'/', '/' :: (body ++ after), rfl,
      (first_slash _).trans (ofSlash_comment hbody hstop)⟩
  | @string body _ hbody =>
    exact ⟨'"', body ++ '"' :: after, by simp [text],
      (first_quote _).trans (ofQuote_string hbody)⟩
  | @openString body hbody =>
    exact ⟨'"', body, by simp [text], (first_quote body).trans (ofQuote_open hbody)⟩
  | newline => exact ⟨'\n', after, rfl, first_newline after⟩
  | @blank c _ hblank => exact ⟨c, after, rfl, first_blank after hblank⟩
  | @whole digits _ hdigits hstop =>
    -- a run of digits has a first one, which is what the source starts with
    obtain ⟨c, digits, rfl⟩ := List.exists_cons_of_ne_nil hdigits.1
    rw [IsDigits, List.forall_mem_cons] at hdigits
    refine ⟨c, digits ++ after, rfl, ?_⟩
    rw [first_digit _ hdigits.2.1, ofDigit_whole hdigits.2.2 hstop]
  | @decimal whole fraction _ hwhole hfraction hstop =>
    obtain ⟨c, digits, rfl⟩ := List.exists_cons_of_ne_nil hwhole.1
    obtain ⟨d, fraction, rfl⟩ := List.exists_cons_of_ne_nil hfraction.1
    rw [IsDigits, List.forall_mem_cons] at hwhole hfraction
    refine ⟨c, digits ++ '.' :: d :: (fraction ++ after), by simp [text], ?_⟩
    rw [first_digit _ hwhole.2.1, ofDigit_decimal hwhole.2.2 hfraction.2.1 hfraction.2.2 hstop]
  | @word text _ htext hstop =>
    cases text with
    | nil => exact htext.elim
    | cons c text =>
      refine ⟨c, text ++ after, rfl, ?_⟩
      rw [first_letter _ htext.1, ofLetter_word htext.2 hstop]
  | @stray c _ hc => exact ⟨c, after, rfl, first_stray after hc⟩

/-- **No segment is empty**, so reading one gets on. -/
theorem Cut.text_ne_nil {s : Segment} {after : List Char} (h : s.Cut after) : s.text ≠ [] := by
  obtain ⟨c, rest, -, hfirst⟩ := first_of_cut h
  have hne := text_first_ne_nil c rest
  rwa [hfirst] at hne

/-! ## Every source starts with a cut -/

/-- An operator is cut where it may end, with its equals sign or without. -/
theorem cut_ofOperator {c : Char} {alone extended : TokenKind} (rest : List Char)
    (h : operatorKinds? c = some (alone, extended)) :
    (ofOperator c alone extended rest).1.Cut (ofOperator c alone extended rest).2 := by
  unfold ofOperator
  split
  · exact .extended h
  · next hrest => exact .alone h (halts_beq hrest)

theorem cut_ofSlash (rest : List Char) : (ofSlash rest).1.Cut (ofSlash rest).2 := by
  unfold ofSlash
  split
  · next rest => exact .comment (not_mem_takeWhile_bne '\n' rest) (halts_dropWhile _ rest)
  · next hrest => exact .slash (halts_beq hrest)

theorem cut_ofQuote (rest : List Char) : (ofQuote rest).1.Cut (ofQuote rest).2 := by
  unfold ofQuote
  split
  · next hdrop =>
    have hrest := List.takeWhile_append_dropWhile (p := (· != '"')) (l := rest)
    rw [hdrop, List.append_nil] at hrest
    exact .openString (hrest ▸ not_mem_takeWhile_bne '"' rest)
  · exact .string (not_mem_takeWhile_bne '"' rest)

/-- A number is cut where it may end: before a point only if no digit stands
behind that. -/
theorem cut_ofDigit {c : Char} (rest : List Char) (h : c.isDigit = true) :
    (ofDigit c rest).1.Cut (ofDigit c rest).2 := by
  have hwhole : IsDigits (c :: rest.takeWhile Char.isDigit) :=
    ⟨by simp, List.forall_mem_cons.2 ⟨h, fun _ => of_mem_takeWhile⟩⟩
  have hstop := halts_dropWhile Char.isDigit rest
  unfold ofDigit
  split
  · next d after hdrop =>
    split
    · next hd =>
      exact .decimal hwhole ⟨by simp, List.forall_mem_cons.2 ⟨hd, fun _ => of_mem_takeWhile⟩⟩
        (halts_dropWhile _ after)
    · next hd =>
      -- the point stays behind, since no digit follows it
      rw [hdrop] at hstop
      refine .whole hwhole ⟨hstop, ?_⟩
      rintro e tail ⟨⟩
      simpa using hd
  · next hdrop => exact .whole hwhole ⟨hstop, fun d tail heq => (hdrop d tail heq).elim⟩

theorem cut_ofLetter {c : Char} (rest : List Char) (h : isWordStart c = true) :
    (ofLetter c rest).1.Cut (ofLetter c rest).2 :=
  .word ⟨h, fun _ => of_mem_takeWhile⟩ (halts_dropWhile _ rest)

/-- **The first segment may end where it does.** -/
theorem cut_first (c : Char) (rest : List Char) : (first c rest).1.Cut (first c rest).2 := by
  by_cases halphabet : inAlphabet c = true
  · rcases start_of_inAlphabet halphabet with
      ⟨kind, h⟩ | ⟨alone, extended, h⟩ | rfl | rfl | rfl | h | h | h
    · rw [first_mark rest h]; exact .mark h
    · rw [first_operator rest h]; exact cut_ofOperator rest h
    · rw [first_slash]; exact cut_ofSlash rest
    · rw [first_quote]; exact cut_ofQuote rest
    · rw [first_newline]; exact .newline
    · rw [first_blank rest h]; exact .blank h
    · rw [first_digit rest h]; exact cut_ofDigit rest h
    · rw [first_letter rest h]; exact cut_ofLetter rest h
  · rw [Bool.not_eq_true] at halphabet
    rw [first_stray rest halphabet]
    exact .stray halphabet

/-- **Cuts and first segments are the same.** -/
theorem first_eq_iff {c : Char} {rest : List Char} {s : Segment} {after : List Char} :
    first c rest = (s, after) ↔ s.Cut after ∧ s.text ++ after = c :: rest := by
  constructor
  · intro h
    have hcut := cut_first c rest
    have happend := text_first_append c rest
    rw [h] at hcut happend
    exact ⟨hcut, happend⟩
  · rintro ⟨hcut, happend⟩
    obtain ⟨d, tail, hsource, hfirst⟩ := first_of_cut hcut
    rw [happend] at hsource
    cases hsource
    exact hfirst

end Segment

/-! ## Text that begins alike -/

/-- A text that begins as another does, or with a newline, or is empty. -/
def BeginsLike (after other : List Char) : Prop := ∀ c ∈ other.head?, c = '\n' ∨ c ∈ after.head?

theorem beginsLike_cons (c : Char) (rest other : List Char) :
    BeginsLike (c :: rest) (c :: other) := fun _ hd => .inr hd

/-- A run that takes no newline, and halts before a text, halts before any
that begins like it. -/
theorem Halts.of_beginsLike {p : Char → Bool} {after other : List Char} (h : Halts p after)
    (hlike : BeginsLike after other) (hp : p '\n' = false) : Halts p other := by
  intro c hc
  rcases hlike c hc with rfl | hafter
  · exact hp
  · exact h c hafter

/-- A run of digits that halts before a text halts before any that begins like
it, if no digit comes to stand behind a point that had none. -/
theorem HaltsWhole.of_beginsLike {after other : List Char} (h : HaltsWhole after)
    (hlike : BeginsLike after other)
    (hpoint : ∀ rest, after = '.' :: rest →
      ∃ tail, other = '.' :: tail ∧ (Halts Char.isDigit rest → Halts Char.isDigit tail)) :
    HaltsWhole other := by
  refine ⟨h.1.of_beginsLike hlike (by decide), ?_⟩
  rintro d tail rfl
  rcases hlike '.' rfl with hnewline | hafter
  · exact absurd hnewline (by decide)
  · obtain ⟨rest, rfl⟩ := List.head?_eq_some_iff.1 hafter
    obtain ⟨_, hsame, hrest⟩ := hpoint rest rfl
    obtain rfl := (List.cons.inj hsame).2
    have hdigit : Halts Char.isDigit rest := by
      cases rest with
      | nil => exact halts_nil _
      | cons e more => exact halts_cons.2 (h.2 e more rfl)
    exact halts_cons.1 (hrest hdigit)

/-- **A cut holds before a text that begins alike**, and has no digit behind
a point where there was none. An open string ends before no text. -/
theorem Segment.Cut.of_beginsLike {s : Segment} {after other : List Char} (h : s.Cut after)
    (hclosed : ∀ text, s ≠ .openString text) (hlike : BeginsLike after other)
    (hpoint : ∀ rest, after = '.' :: rest →
      ∃ tail, other = '.' :: tail ∧ (Halts Char.isDigit rest → Halts Char.isDigit tail)) :
    s.Cut other := by
  cases h with
  | mark hkind => exact .mark hkind
  | alone hkinds hstop => exact .alone hkinds (hstop.of_beginsLike hlike rfl)
  | extended hkinds => exact .extended hkinds
  | slash hstop => exact .slash (hstop.of_beginsLike hlike rfl)
  | comment hbody hstop => exact .comment hbody (hstop.of_beginsLike hlike rfl)
  | string hbody => exact .string hbody
  | openString => exact (hclosed _ rfl).elim
  | newline => exact .newline
  | blank hc => exact .blank hc
  | whole hdigits hstop => exact .whole hdigits (hstop.of_beginsLike hlike hpoint)
  | decimal hwhole hfraction hstop =>
    exact .decimal hwhole hfraction (hstop.of_beginsLike hlike (by decide))
  | word htext hstop => exact .word htext (hstop.of_beginsLike hlike (by decide))
  | stray hc => exact .stray hc

/-! ## Text behind what follows -/

/-- A run halts before a longer text, if it does so where the shorter one is
empty. -/
theorem halts_append {p : Char → Bool} {after more : List Char} (h : Halts p after)
    (hend : after = [] → Halts p more) : Halts p (after ++ more) := by
  cases after with
  | nil => exact hend rfl
  | cons c rest => exact halts_cons.2 (halts_cons.1 h)

/-- A text begins as it did when it goes on, if with a newline where it was
empty. -/
theorem beginsLike_append {after more : List Char} (hend : after = [] → more.head? = some '\n') :
    BeginsLike after (after ++ more) := by
  cases after with
  | nil =>
    intro c hc
    rw [List.nil_append, hend rfl] at hc
    exact .inl (Option.some.inj hc).symm
  | cons c rest => exact beginsLike_cons c rest _

/-- **A cut holds before a longer text**, if it does not stand at the end
or the longer text goes on there with a newline, and no digit is put behind
a point. -/
theorem Segment.Cut.append {s : Segment} {after more : List Char} (h : s.Cut after)
    (hclosed : ∀ text, s ≠ .openString text) (hend : after = [] → more.head? = some '\n')
    (hpoint : after = ['.'] → Halts Char.isDigit more) : s.Cut (after ++ more) := by
  refine h.of_beginsLike hclosed (beginsLike_append hend) ?_
  rintro rest rfl
  refine ⟨rest ++ more, rfl, fun hrest => halts_append hrest fun hnil => ?_⟩
  exact hpoint (congrArg ('.' :: ·) hnil)

/-! ## Text that goes on with no token -/

/-- The characters that may stand behind a token and be part of it. -/
def continuesToken (c : Char) : Bool := isWordPart c || c == '=' || c == '/' || c == '.'

/-- Where a run of a class halts, a run of a smaller class does. -/
theorem Halts.mono {p q : Char → Bool} {after : List Char} (h : Halts q after)
    (hpq : ∀ c, p c = true → q c = true) : Halts p after :=
  fun c hc => Bool.eq_false_iff.2 fun hp => Bool.false_ne_true ((h c hc).symm.trans (hpq c hp))

/-- A number ends wherever no token goes on, for a point would go on with one. -/
theorem haltsWhole_of_halts {after : List Char} (h : Halts continuesToken after) :
    HaltsWhole after := by
  refine ⟨h.mono fun c hc => by simp [continuesToken, isWordPart, hc], ?_⟩
  rintro d rest rfl
  exact absurd (halts_cons.1 h) (by decide)

/-- **A token ends before whatever goes on with none**, whatever it ended
before. -/
theorem Segment.Cut.before {kind : TokenKind} {text after rest : List Char}
    (h : (matched (.token kind) text).Cut after) (hrest : Halts continuesToken rest) :
    (matched (.token kind) text).Cut rest := by
  have hequal : Halts (· == '=') rest := hrest.mono fun c hc => by simp_all [continuesToken]
  have hslash : Halts (· == '/') rest := hrest.mono fun c hc => by simp_all [continuesToken]
  have hword : Halts isWordPart rest := hrest.mono fun c hc => by simp [continuesToken, hc]
  cases h with
  | mark hkind => exact .mark hkind
  | alone hkinds => exact .alone hkinds hequal
  | extended hkinds => exact .extended hkinds
  | slash => exact .slash hslash
  | string hbody => exact .string hbody
  | whole hdigits => exact .whole hdigits (haltsWhole_of_halts hrest)
  | decimal hwhole hfraction =>
    exact .decimal hwhole hfraction (haltsWhole_of_halts hrest).1
  | word htext => exact .word htext hword

/-! ## Cuts of a whole source -/

/-- A segment that may end where it does is the first of its source. -/
theorem segments_of_cut {s : Segment} {after : List Char} (h : s.Cut after) :
    segments (s.text ++ after) = s :: segments after := by
  obtain ⟨c, rest, hsource, hfirst⟩ := Segment.first_of_cut h
  rw [hsource, segments_cons, hfirst]

/-- **Induction along the cuts of a source**: from what is left behind the
first segment to the whole. -/
theorem segments_induction {motive : List Char → List Segment → Prop} (nil : motive [] [])
    (cut : ∀ (s : Segment) (after : List Char), s.Cut after → motive after (segments after) →
      motive (s.text ++ after) (s :: segments after)) (source : List Char) :
    motive source (segments source) := by
  fun_induction segments source with
  | case1 => exact nil
  | case2 c rest first ih =>
    have hcut := cut _ _ (Segment.cut_first c rest) ih
    rwa [Segment.text_first_append] at hcut

/-- Each segment of a source is cut off somewhere. -/
theorem exists_cut_of_mem_segments {source : List Char} {s : Segment} (h : s ∈ segments source) :
    ∃ after, s.Cut after := by
  revert h
  refine segments_induction (motive := fun _ segs => s ∈ segs → ∃ after, s.Cut after)
    ?nil ?cut source
  case nil => simp
  case cut =>
    intro t after hcut ih hmem
    rcases List.mem_cons.1 hmem with rfl | hrest
    · exact ⟨after, hcut⟩
    · exact ih hrest

end LoxFront
