import LoxFront.Proofs.Lexical.Reader
/-!
# Steps of the reader

What is read in a loop has a shape of its own (`Reader.Part`), and each turn
of the loop keeps it or brings the reader behind the lexeme
(`Reader.Leads`). It is the shape that lets the lexeme be added: digits, and
digits around a point, are a numeral, and between two quotes there is a
slice. So the reader has a step, and no fault, wherever something is left
(`Reader.Between.exists_step`, `Reader.Inside.exists_step`).
-/

namespace LoxFront

/-! ## Runs that go on -/

/-- A class without the newline has members that are none, so reading them
counts no line. -/
theorem ne_newline_of_class {p : Char → Bool} (hp : p '\n' = false) {d : Char}
    (hd : p d = true) : d ≠ '\n' := by
  rintro rfl
  exact Bool.false_ne_true (hp.symm.trans hd)

theorem isDigits_concat {digits : List Char} {d : Char} (h : ∀ c ∈ digits, c.isDigit = true)
    (hd : d.isDigit = true) : IsDigits (digits ++ [d]) :=
  ⟨by simp, List.forall_mem_append.2 ⟨h, List.forall_mem_singleton.2 hd⟩⟩

theorem isDigits_singleton {d : Char} (h : d.isDigit = true) : IsDigits [d] :=
  ⟨by simp, List.forall_mem_singleton.2 h⟩

/-- A word grows by a character that words have. -/
theorem isWord_concat {text : List Char} {d : Char} (h : IsWord text)
    (hd : isWordPart d = true) : IsWord (text ++ [d]) := by
  cases text with
  | nil => exact h.elim
  | cons c rest =>
    exact ⟨h.1, List.forall_mem_append.2 ⟨h.2, List.forall_mem_singleton.2 hd⟩⟩

namespace Reader

variable {source text after : List Char} {c : Cursor} {r s : Reader} {d : Char}

/-! ## The loops -/

/-- **What is read in each loop**, before what is left. -/
inductive Part : Phase → List Char → List Char → Prop
  | comment {body after : List Char} : '\n' ∉ body → Part .comment ('/' :: '/' :: body) after
  | string {body after : List Char} : '"' ∉ body → Part .string ('"' :: body) after
  | whole {text after : List Char} : IsDigits text → Part .whole text after
  /-- A point is taken only before a digit. -/
  | point {whole after : List Char} {d : Char} :
      IsDigits whole → d.isDigit = true → Part .fraction (whole ++ ['.']) (d :: after)
  | fraction {whole fraction after : List Char} :
      IsDigits whole → IsDigits fraction → Part .fraction (whole ++ '.' :: fraction) after
  | word {text after : List Char} : IsWord text → Part .word text after

/-- The reader stands in a lexeme, in the loop for it. -/
def Inside (source : List Char) (c : Cursor) (r : Reader) : Prop :=
  ∃ text after, At source c text after r ∧ Part r.phase text after

/-- The reader is in the same lexeme, at this place or behind it, or it is
behind the lexeme, where the cursor's next step ends. -/
def GoesOn (source : List Char) (c : Cursor) (place : ℕ) (s : Reader) : Prop :=
  (Inside source c s ∧ place ≤ s.current) ∨ ∃ d, c.next? = some d ∧ Between source d s

/-- **An operation brings the reader on**, without a fault: to this place or
behind it if the lexeme goes on there. -/
def Leads (source : List Char) (c : Cursor) (place : ℕ) (operation : Except Fault Reader) : Prop :=
  ∃ s, operation = .ok s ∧ GoesOn source c place s

/-- Ending the lexeme is one way to be brought on. -/
theorem Ends.leads {operation : Except Fault Reader} (h : Ends source c operation) (place : ℕ) :
    Leads source c place operation := by
  obtain ⟨s, hs, hnext⟩ := h
  exact ⟨s, hs, .inr hnext⟩

namespace At

/-- Where the reader is in the source does not depend on its phase. -/
theorem withPhase (h : At source c text after r) (phase : Phase) :
    At source c text after { r with phase := phase } :=
  ⟨h.reached, h.left_eq, h.start_eq, h.current_eq, h.line_eq, h.tokens_eq, h.errors_eq⟩

/-- A character other than a newline leaves the line as it is. -/
theorem next_of_ne (h : At source c text (d :: after) r) (hne : d ≠ '\n') :
    At source c (text ++ [d]) after { r with current := r.current + 1 } := by
  have hcount : [d].count '\n' = 0 := List.count_eq_zero.2 (by simpa using hne.symm)
  exact h.next rfl rfl (by rw [hcount]; rfl) rfl rfl

/-- It is read on, whatever the loop. -/
theorem leads_skip (h : At source c text (d :: after) r) (hne : d ≠ '\n')
    (hpart : Part r.phase (text ++ [d]) after) : Leads source c (r.current + 1) (r.skip source) :=
  ⟨_, skip_of_getElem? h.getElem?, .inl ⟨⟨_, _, h.next_of_ne hne, hpart⟩, Nat.le_refl _⟩⟩

/-- In a comment the reader goes on to the newline. -/
theorem leads_inComment {body : List Char} (h : At source c ('/' :: '/' :: body) after r)
    (hphase : r.phase = .comment) (hbody : '\n' ∉ body) :
    Leads source c (r.current + 1) (r.inComment source) := by
  have hend (hstop : Halts (· != '\n') after) :
      GoesOn source c (r.current + 1) { r with phase := .between } :=
    .inr ((h.withPhase .between).exists_next_silent rfl (.comment hbody hstop) rfl rfl)
  cases after with
  | nil =>
    -- U+0000 is seen and goes on with the comment, but the end does not
    rw [inComment, h.peek_nil, h.atEnd_eq]
    exact ⟨_, rfl, hend (halts_nil _)⟩
  | cons d rest =>
    rw [inComment, h.peek_cons, h.atEnd_eq]
    by_cases hd : d = '\n'
    · refine ⟨_, if_neg ?_, hend (halts_cons.2 ?_)⟩ <;> simp [hd]
    · have hmore : '\n' ∉ body ++ [d] := by simp [hbody, Ne.symm hd]
      rw [if_pos (by simp [hd])]
      apply h.leads_skip hd
      rw [hphase]
      exact .comment hmore

/-- In a string the reader goes on to the quote, over newlines too. -/
theorem leads_inString {body : List Char} (h : At source c ('"' :: body) after r)
    (hphase : r.phase = .string) (hbody : '"' ∉ body) :
    Leads source c (r.current + 1) (r.inString source) := by
  cases after with
  | nil =>
    rw [inString, h.peek_nil, h.atEnd_eq]
    exact ⟨_, rfl, .inr (h.exists_next_report (.openString hbody) rfl rfl)⟩
  | cons d rest =>
    rw [inString, h.peek_cons, h.atEnd_eq]
    by_cases hquote : d = '"'
    · subst hquote
      exact (h.ends_addString hbody).leads _
    · have hmore : '"' ∉ body ++ [d] := by simp [hbody, Ne.symm hquote]
      have hpart : Part r.phase ('"' :: body ++ [d]) rest := by
        rw [hphase]
        exact .string hmore
      rw [if_pos (by simp [hquote])]
      by_cases hnewline : d = '\n'
      · -- the line is counted on before the character is taken
        rw [if_pos hnewline]
        refine ⟨_, skip_of_getElem? h.getElem?, .inl ⟨⟨_, _, ?_, hpart⟩, Nat.le_refl _⟩⟩
        exact h.next rfl rfl (by rw [hnewline]; rfl) rfl rfl
      · rw [if_neg hnewline]
        exact h.leads_skip hnewline hpart

/-- A point belongs to a number only with a digit behind it; if there is
neither, the number ends. -/
theorem leads_inWhole (h : At source c text after r) (hphase : r.phase = .whole)
    (hdigits : IsDigits text) : Leads source c (r.current + 1) (r.inWhole source) := by
  have hend (hstop : HaltsWhole after) : Leads source c (r.current + 1) (r.addNumber source) :=
    (h.ends_addNumber (.whole hdigits hstop)).leads _
  cases after with
  | nil =>
    -- the end is not asked for: U+0000 is no digit and no point
    rw [inWhole, h.peek_nil]
    exact hend haltsWhole_nil
  | cons d rest =>
    rw [inWhole, h.peek_cons]
    by_cases hdigit : d.isDigit = true
    · rw [if_pos hdigit]
      apply h.leads_skip (ne_newline_of_class (by decide) hdigit)
      rw [hphase]
      exact .whole (isDigits_concat hdigits.2 hdigit)
    · rw [if_neg hdigit]
      rw [Bool.not_eq_true] at hdigit
      -- two characters decide, of which the second may be missing
      cases rest with
      | nil =>
        rw [h.peekNext_nil, if_neg (by rintro ⟨-, hnext⟩; cases hnext)]
        exact hend ⟨halts_cons.2 hdigit, by rintro e tail ⟨⟩⟩
      | cons e rest =>
        rw [h.peekNext_cons]
        by_cases hpoint : d = '.' ∧ e.isDigit = true
        · obtain ⟨rfl, he⟩ := hpoint
          rw [if_pos ⟨rfl, he⟩]
          exact (h.withPhase .fraction).leads_skip (by decide) (.point hdigits he)
        · rw [if_neg hpoint]
          refine hend ⟨halts_cons.2 hdigit, ?_⟩
          rintro e tail ⟨⟩
          simpa using hpoint

theorem leads_inFraction (h : At source c text after r) (hphase : r.phase = .fraction)
    (hpart : Part .fraction text after) :
    Leads source c (r.current + 1) (r.inFraction source) := by
  cases hpart with
  | @point whole rest d hwhole hdigit =>
    rw [inFraction, h.peek_cons, if_pos hdigit]
    apply h.leads_skip (ne_newline_of_class (by decide) hdigit)
    rw [hphase, List.append_assoc]
    exact .fraction hwhole (isDigits_singleton hdigit)
  | @fraction whole fraction _ hwhole hfraction =>
    have hend (hstop : Halts Char.isDigit after) :
        Leads source c (r.current + 1) (r.addNumber source) :=
      (h.ends_addNumber (.decimal hwhole hfraction hstop)).leads _
    cases after with
    | nil =>
      rw [inFraction, h.peek_nil]
      exact hend (halts_nil _)
    | cons d rest =>
      rw [inFraction, h.peek_cons]
      by_cases hdigit : d.isDigit = true
      · rw [if_pos hdigit]
        apply h.leads_skip (ne_newline_of_class (by decide) hdigit)
        rw [hphase, List.append_assoc]
        exact .fraction hwhole (isDigits_concat hfraction.2 hdigit)
      · rw [if_neg hdigit]
        exact hend (halts_cons.2 (by simpa using hdigit))

theorem leads_inWord (h : At source c text after r) (hphase : r.phase = .word)
    (hword : IsWord text) : Leads source c (r.current + 1) (r.inWord source) := by
  cases after with
  | nil =>
    rw [inWord, h.peek_nil]
    exact (h.ends_addWord hword (halts_nil _)).leads _
  | cons d rest =>
    rw [inWord, h.peek_cons]
    by_cases hpart : isWordPart d = true
    · rw [if_pos hpart]
      apply h.leads_skip (ne_newline_of_class (by decide) hpart)
      rw [hphase]
      exact .word (isWord_concat hword hpart)
    · rw [if_neg hpart]
      exact (h.ends_addWord hword (halts_cons.2 (by simpa using hpart))).leads _

/-! ## The first character -/

/-- Behind an operator an equals sign is taken with it. -/
theorem ends_operator (h : At source c [d] after r) {alone extended : TokenKind}
    (hkinds : operatorKinds? d = some (alone, extended)) :
    Ends source c (match r.matchNext source '=' with
      | (true, r) => r.addToken source extended none
      | (false, r) => r.addToken source alone none) := by
  have hliteral := literal?_of_operator hkinds
  rcases halts_or_eq_cons '=' after with hstop | ⟨rest, rfl⟩
  · rw [h.matchNext_halts hstop]
    exact h.ends_addToken (.alone hkinds hstop) (hliteral _).1
  · rw [h.matchNext_cons]
    exact (h.next_of_ne (by decide)).ends_addToken (.extended hkinds) (hliteral _).2

/-- Behind a slash a second one starts a comment. -/
theorem leads_slash (h : At source c ['/'] after r) :
    Leads source c r.current (match r.matchNext source '/' with
      | (true, r) => return { r with phase := .comment }
      | (false, r) => r.addToken source .slash none) := by
  rcases halts_or_eq_cons '/' after with hstop | ⟨rest, rfl⟩
  · rw [h.matchNext_halts hstop]
    exact (h.ends_addToken (.slash hstop) rfl).leads _
  · have hsecond := (h.withPhase .comment).next_of_ne (by decide)
    rw [h.matchNext_cons]
    exact ⟨_, rfl, .inl ⟨⟨_, _, hsecond, .comment List.not_mem_nil⟩, Nat.le_succ _⟩⟩

/-- What a lexeme's first character leads to. A newline is counted only
behind it, so it does not stand in the line here. -/
theorem leads_enter (h : At source c [d] after r) (hne : d ≠ '\n') (hphase : r.phase = .between) :
    Leads source c r.current (r.enter source d) := by
  have hloop {phase : Phase} (hpart : Part phase [d] after) :
      Leads source c r.current (.ok { r with phase := phase }) :=
    ⟨_, rfl, .inl ⟨⟨[d], after, h.withPhase phase, hpart⟩, Nat.le_refl _⟩⟩
  unfold enter
  split
  · next kind hmark => exact (h.ends_addToken (.mark hmark) (literal?_of_mark hmark _)).leads _
  split
  · next alone extended hkinds => exact (h.ends_operator hkinds).leads _
  split
  · next hslash =>
    subst hslash
    exact h.leads_slash
  split
  · next hquote =>
    subst hquote
    exact hloop (.string List.not_mem_nil)
  split
  · next hblank => exact ⟨r, rfl, .inr (h.exists_next_silent hphase (.blank hblank) rfl rfl)⟩
  split
  · next hdigit => exact hloop (.whole (isDigits_singleton hdigit))
  split
  · next hstart => exact hloop (.word ⟨hstart, by rintro e ⟨⟩⟩)
  · next hmark _ hkinds hslash hquote hblank hdigit hstart =>
    -- a character of the alphabet was met in one of the branches before
    have hstray : inAlphabet d = false := by
      rw [← Bool.not_eq_true]
      intro halphabet
      rcases Segment.start_of_inAlphabet halphabet with
        ⟨kind, h⟩ | ⟨alone, extended, h⟩ | h | h | h | h | h | h
      · exact hmark kind h
      · exact hkinds alone extended h
      · exact hslash h
      · exact hquote h
      · exact hne h
      · exact hblank h
      · exact hdigit h
      · exact hstart h
    exact ⟨_, rfl, .inr (h.exists_next_report (.stray hstray) rfl rfl)⟩

end At

/-! ## Steps -/

namespace Between

/-- Before its first character the reader stands in the next lexeme, too. -/
theorem at_nil (h : Between source c r) : At source c [] c.left { r with start := r.current } :=
  ⟨h.reached, rfl, h.current_eq, h.current_eq, h.line_eq, h.tokens_eq, h.errors_eq⟩

/-- **Between two lexemes the reader begins one**, if anything is left. -/
theorem leads_begin (h : Between source c r) (hleft : c.left ≠ []) :
    Leads source c (r.current + 1) (r.begin source) := by
  obtain ⟨d, rest, hcons⟩ := List.exists_cons_of_ne_nil hleft
  have hstart := h.at_nil
  rw [hcons] at hstart
  rw [begin, advance_of_getElem? hstart.getElem?, ok_bind]
  by_cases hnewline : d = '\n'
  · subst hnewline
    have hfirst : At source c ['\n'] rest
        { r with start := r.current, current := r.current + 1, line := r.line + 1 } :=
      hstart.next rfl rfl rfl rfl rfl
    exact ⟨_, rfl, .inr (hfirst.exists_next_silent h.phase_eq .newline rfl rfl)⟩
  · exact (hstart.next_of_ne hnewline).leads_enter hnewline h.phase_eq

/-- **Between two lexemes there is a step while something is left.** -/
theorem exists_step (h : Between source c r) (hleft : c.left ≠ []) :
    ∃ s, r.step source = .ok (some s) ∧ GoesOn source c (r.current + 1) s := by
  obtain ⟨s, hs, hgoes⟩ := h.leads_begin hleft
  have hend : r.atEnd source = false := by
    have hatEnd := h.at_nil.atEnd_eq
    rwa [List.isEmpty_eq_false_iff.2 hleft] at hatEnd
  rw [step, h.phase_eq]
  simp only
  rw [hend, hs]
  exact ⟨s, rfl, hgoes⟩

/-- With nothing left the reader stops. -/
theorem step_end (h : Between source c r) (hleft : c.left = []) : r.step source = .ok none := by
  have hend : r.atEnd source = true := by
    have hatEnd := h.at_nil.atEnd_eq
    rwa [hleft] at hatEnd
  rw [step, h.phase_eq]
  simp only
  rw [hend]
  rfl

end Between

/-- **In a lexeme there is a step.** -/
theorem Inside.exists_step (h : Inside source c r) :
    ∃ s, r.step source = .ok (some s) ∧ GoesOn source c (r.current + 1) s := by
  obtain ⟨text, after, hat, hpart⟩ := h
  have hloop {loop : Except Fault Reader} (hstep : r.step source = some <$> loop)
      (h : Leads source c (r.current + 1) loop) :
      ∃ s, r.step source = .ok (some s) ∧ GoesOn source c (r.current + 1) s := by
    obtain ⟨s, rfl, hgoes⟩ := h
    exact ⟨s, hstep, hgoes⟩
  cases hphase : r.phase <;> rw [hphase] at hpart
  case between => cases hpart
  case comment =>
    cases hpart with
    | comment hbody => exact hloop (by simp only [step, hphase]) (hat.leads_inComment hphase hbody)
  case string =>
    cases hpart with
    | string hbody => exact hloop (by simp only [step, hphase]) (hat.leads_inString hphase hbody)
  case whole =>
    cases hpart with
    | whole hdigits => exact hloop (by simp only [step, hphase]) (hat.leads_inWhole hphase hdigits)
  case fraction => exact hloop (by simp only [step, hphase]) (hat.leads_inFraction hphase hpart)
  case word =>
    cases hpart with
    | word hword => exact hloop (by simp only [step, hphase]) (hat.leads_inWord hphase hword)

end Reader

end LoxFront
