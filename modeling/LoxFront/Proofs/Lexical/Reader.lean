import LoxFront.Lexical.Reader
import LoxFront.Proofs.Lexical.Line
import LoxFront.Proofs.Lexical.LongestMatch
/-!
# Places of the reader

A reader in a lexeme stands behind a part of it (`Reader.At`): the source is
what a cursor read before the lexeme, the part, and what is left, and the
reader's places are the lengths of the first and of the first two. So what
it sees, takes and cuts out is known, and U+0000 is told from the end by
what is left. Where a segment may end, the reader adds its event and stands
where the cursor's next step ends (`Reader.At.exists_next`); so a lexeme is
added without a fault where its segment may end (`Reader.Ends`).
-/

namespace LoxFront

/-! ## Numerals -/

/-- What is taken for a number is a numeral, and every numeral is. -/
theorem isNumeral_iff {text : List Char} :
    isNumeral text = true ↔ TokenKind.number.Spells text := by
  constructor
  · intro h
    have hsplit := List.takeWhile_append_dropWhile (p := Char.isDigit) (l := text)
    have hwhole : ∀ c ∈ text.takeWhile Char.isDigit, c.isDigit = true := fun _ => of_mem_takeWhile
    unfold isNumeral at h
    generalize text.takeWhile Char.isDigit = whole at h hsplit hwhole
    generalize text.dropWhile Char.isDigit = rest at h hsplit
    simp only [Bool.and_eq_true, Bool.or_eq_true, bne_iff_ne, beq_iff_eq, List.all_eq_true] at h
    obtain ⟨hne, rfl | ⟨⟨hpoint, hrest⟩, hfraction⟩⟩ := h
    · rw [List.append_nil] at hsplit
      exact .inl (hsplit ▸ ⟨hne, hwhole⟩)
    · obtain ⟨fraction, rfl⟩ := List.head?_eq_some_iff.1 hpoint
      exact .inr ⟨whole, fraction, ⟨hne, hwhole⟩, ⟨hrest, hfraction⟩, hsplit.symm⟩
  · rintro (hdigits | ⟨whole, fraction, hwhole, hfraction, rfl⟩)
    · have htake := takeWhile_append_of_halts hdigits.2 (halts_nil Char.isDigit)
      have hdrop := dropWhile_append_of_halts hdigits.2 (halts_nil Char.isDigit)
      rw [List.append_nil] at htake hdrop
      unfold isNumeral
      rw [htake, hdrop]
      simp [hdigits.1]
    · have hstop : Halts Char.isDigit ('.' :: fraction) := halts_cons.2 rfl
      unfold isNumeral
      rw [takeWhile_append_of_halts hwhole.2 hstop, dropWhile_append_of_halts hwhole.2 hstop]
      simpa [hwhole.1, hfraction.1] using hfraction.2

/-- The slice between two places is the text that stands there. -/
theorem slice_append (before text after : List Char) :
    slice (before ++ (text ++ after)) before.length (before.length + text.length) = .ok text := by
  have hle : before.length + text.length ≤ (before ++ (text ++ after)).length := by
    rw [List.length_append, List.length_append]
    omega
  rw [slice, if_pos ⟨Nat.le_add_right _ _, hle⟩, ← List.append_assoc, ← List.length_append,
    List.take_left, List.drop_left]

/-- Marks have no value. -/
theorem literal?_of_mark {c : Char} {kind : TokenKind} (h : markKind? c = some kind)
    (text : List Char) : kind.literal? text = none := by
  unfold markKind? at h
  split at h <;> cases h <;> rfl

theorem literal?_of_operator {c : Char} {alone extended : TokenKind}
    (h : operatorKinds? c = some (alone, extended)) (text : List Char) :
    alone.literal? text = none ∧ extended.literal? text = none := by
  unfold operatorKinds? at h
  split at h <;> cases h <;> exact ⟨rfl, rfl⟩

namespace Reader

/-- Where there is a character, advancing gives it and gets one place on. -/
theorem advance_of_getElem? {source : List Char} {r : Reader} {d : Char}
    (h : source[r.current]? = some d) :
    r.advance source = .ok (d, { r with current := r.current + 1 }) := by
  rw [advance, h]

/-- Where there is a character, skipping gets one place on. -/
theorem skip_of_getElem? {source : List Char} {r : Reader} {d : Char}
    (h : source[r.current]? = some d) :
    r.skip source = .ok { r with current := r.current + 1 } := by
  rw [skip, advance_of_getElem? h]
  rfl

theorem ok_bind {α β : Type} (a : α) (f : α → Except Fault β) : (Except.ok a >>= f) = f a := rfl

/-! ## In a lexeme -/

/-- **The reader stands in a lexeme** that starts where a cursor stands: so
much of it is read, and so much of the source is left. -/
structure At (source : List Char) (c : Cursor) (text after : List Char) (r : Reader) : Prop where
  reached : Cursor.Reached source c
  left_eq : c.left = text ++ after
  start_eq : r.start = c.read.length
  current_eq : r.current = c.read.length + text.length
  line_eq : r.line = c.line + text.count '\n'
  tokens_eq : r.tokens = c.found.filterMap ScanEvent.token?
  errors_eq : r.errors = c.found.filterMap ScanEvent.error?

/-- **The reader stands between two lexemes**, where a cursor stands. -/
structure Between (source : List Char) (c : Cursor) (r : Reader) : Prop where
  phase_eq : r.phase = .between
  start_le : r.start ≤ r.current
  reached : Cursor.Reached source c
  current_eq : r.current = c.read.length
  line_eq : r.line = c.line
  tokens_eq : r.tokens = c.found.filterMap ScanEvent.token?
  errors_eq : r.errors = c.found.filterMap ScanEvent.error?

/-- **An operation brings the reader behind the lexeme**, without a fault: to
where the cursor's next step ends. -/
def Ends (source : List Char) (c : Cursor) (operation : Except Fault Reader) : Prop :=
  ∃ s, operation = .ok s ∧ ∃ d, c.next? = some d ∧ Between source d s

variable {source text after : List Char} {c : Cursor} {r s : Reader} {d : Char}

namespace At

/-- A source falls into what was read, the text begun, and what follows. -/
theorem source_eq (h : At source c text after r) : source = c.read ++ (text ++ after) := by
  rw [← h.left_eq, h.reached.read_append_left]

/-- **The bounds hold** wherever the reader stands: the text begun does not
start behind the place, nor lies that behind the end. -/
theorem bounds (h : At source c text after r) :
    r.start ≤ r.current ∧ r.current ≤ source.length := by
  have hlength := congrArg List.length h.source_eq
  rw [List.length_append, List.length_append] at hlength
  rw [h.start_eq, h.current_eq]
  omega

/-- What is left is what the source has from here on. -/
theorem getElem?_add (h : At source c text after r) (i : ℕ) :
    source[r.current + i]? = after[i]? := by
  have hsource := h.source_eq
  rw [← List.append_assoc] at hsource
  have hplace : r.current + i = (c.read ++ text).length + i := by
    rw [h.current_eq, List.length_append]
  rw [hplace, hsource, List.getElem?_append_right (Nat.le_add_right _ _), Nat.add_sub_cancel_left]

/-- The character at the place is the first that follows. -/
theorem getElem? (h : At source c text after r) : source[r.current]? = after[0]? :=
  h.getElem?_add 0

theorem atEnd_eq (h : At source c text after r) : r.atEnd source = after.isEmpty := by
  have hlength := congrArg List.length h.source_eq
  rw [List.length_append, List.length_append] at hlength
  rw [atEnd, h.current_eq]
  cases after with
  | nil => exact decide_eq_true (by rw [hlength, List.length_nil]; omega)
  | cons d rest => exact decide_eq_false (by rw [hlength, List.length_cons]; omega)

theorem peek_cons (h : At source c text (d :: after) r) : r.peek source = d := by
  rw [peek, h.getElem?]
  rfl

theorem peek_nil (h : At source c text [] r) : r.peek source = '\x00' := by
  rw [peek, h.getElem?]
  rfl

theorem peekNext_cons {e : Char} (h : At source c text (d :: e :: after) r) :
    r.peekNext source = e := by
  rw [peekNext, h.getElem?_add 1]
  rfl

theorem peekNext_nil (h : At source c text [d] r) : r.peekNext source = '\x00' := by
  rw [peekNext, h.getElem?_add 1]
  rfl

/-- **The slice for a lexeme is in bounds**, and is the text begun. -/
theorem lexeme_eq (h : At source c text after r) : r.lexeme source = .ok text := by
  rw [lexeme, h.start_eq, h.current_eq, h.source_eq]
  exact slice_append c.read text after

/-- A character is read on. -/
theorem next (h : At source c text (d :: after) r) (hstart : s.start = r.start)
    (hcurrent : s.current = r.current + 1) (hline : s.line = r.line + [d].count '\n')
    (htokens : s.tokens = r.tokens) (herrors : s.errors = r.errors) :
    At source c (text ++ [d]) after s where
  reached := h.reached
  left_eq := by rw [h.left_eq, List.append_assoc, List.singleton_append]
  start_eq := hstart.trans h.start_eq
  current_eq := by
    rw [hcurrent, h.current_eq, List.length_append, List.length_singleton, Nat.add_assoc]
  line_eq := by rw [hline, h.line_eq, List.count_append, Nat.add_assoc]
  tokens_eq := htokens.trans h.tokens_eq
  errors_eq := herrors.trans h.errors_eq

/-- A wanted character is passed over if it is the next. -/
theorem matchNext_cons (h : At source c text (d :: after) r) :
    r.matchNext source d = (true, { r with current := r.current + 1 }) := by
  rw [matchNext, h.atEnd_eq, h.getElem?]
  simp

/-- If a wanted character is not the next, the reader stays. -/
theorem matchNext_halts {target : Char} (h : At source c text after r)
    (hstop : Halts (· == target) after) : r.matchNext source target = (false, r) := by
  rw [matchNext, h.getElem?]
  cases after with
  | nil => simp
  | cons e rest =>
    rw [halts_cons] at hstop
    simp_all

/-! ## Behind a lexeme -/

/-- **Where a segment ends, the cursor goes on behind it**, and so does the
reader if it adds the segment's event. -/
theorem exists_next (h : At source c text after r) {segment : Segment} (hcut : segment.Cut after)
    (htext : segment.text = text) (hphase : s.phase = .between) (hstart : s.start = r.start)
    (hcurrent : s.current = r.current) (hline : s.line = r.line)
    (htokens : s.tokens =
      r.tokens ++ (segment.event? r.line).toList.filterMap ScanEvent.token?)
    (herrors : s.errors =
      r.errors ++ (segment.event? r.line).toList.filterMap ScanEvent.error?) :
    ∃ d, c.next? = some d ∧ Between source d s := by
  obtain ⟨e, rest, hsource, hfirst⟩ := Segment.first_of_cut hcut
  have hleft : c.left = e :: rest := by rw [h.left_eq, ← htext, hsource]
  have hnext : c.next? = some (c.pass segment after) := by
    rw [Cursor.next?, hleft]
    exact congrArg (fun cut => some (c.pass cut.1 cut.2)) hfirst
  have hcounted : r.line = c.line + segment.counted := by
    rw [h.line_eq, counted_of_cut hcut, Segment.newlines, htext]
  refine ⟨c.pass segment after, hnext, hphase, ?_, h.reached.next hnext, ?_, ?_, ?_, ?_⟩
  · rw [hstart, hcurrent]
    exact h.bounds.1
  · rw [hcurrent, h.current_eq, Cursor.pass, htext, List.length_append]
  · rw [hline, hcounted, Cursor.pass]
  · rw [htokens, h.tokens_eq, hcounted, Cursor.pass, List.filterMap_append]
  · rw [herrors, h.errors_eq, hcounted, Cursor.pass, List.filterMap_append]

/-- A lexeme that is no event is passed over. -/
theorem exists_next_silent (h : At source c text after r) (hphase : r.phase = .between)
    {segment : Segment} (hcut : segment.Cut after) (htext : segment.text = text)
    (hevent : segment.event? r.line = none) : ∃ d, c.next? = some d ∧ Between source d r := by
  apply h.exists_next hcut htext hphase rfl rfl rfl
  · rw [hevent]
    exact (List.append_nil _).symm
  · rw [hevent]
    exact (List.append_nil _).symm

/-- A lexeme that is a fault is reported. -/
theorem exists_next_report (h : At source c text after r) {segment : Segment}
    (hcut : segment.Cut after) (htext : segment.text = text) {error : ScanError}
    (hevent : segment.event? r.line = some (.error error)) :
    ∃ d, c.next? = some d ∧ Between source d (r.report error) := by
  refine h.exists_next hcut htext rfl rfl rfl rfl ?_ ?_
  · rw [hevent]
    exact (List.append_nil _).symm
  · rw [hevent]
    rfl

/-- A lexeme is added as the token of its kind. -/
theorem ends_addToken (h : At source c text after r) {kind : TokenKind} {literal : Option Value}
    (hcut : (Segment.matched (.token kind) text).Cut after)
    (hliteral : kind.literal? text = literal) : Ends source c (r.addToken source kind literal) := by
  rw [addToken, h.lexeme_eq, ok_bind]
  refine ⟨_, rfl, h.exists_next hcut rfl rfl rfl rfl rfl ?_ ?_⟩
  · rw [← hliteral]
    rfl
  · exact (List.append_nil _).symm

/-- A numeral is added as a number. -/
theorem ends_addNumber (h : At source c text after r)
    (hcut : (Segment.matched (.token .number) text).Cut after) :
    Ends source c (r.addNumber source) := by
  rw [addNumber, h.lexeme_eq, ok_bind, if_pos (isNumeral_iff.2 (spells_of_cut hcut))]
  exact h.ends_addToken hcut rfl

/-- A word is added as an identifier or a keyword. -/
theorem ends_addWord (h : At source c text after r) (hword : IsWord text)
    (hstop : Halts isWordPart after) : Ends source c (r.addWord source) := by
  have hliteral : (Segment.wordKind text).literal? text = none := by
    unfold Segment.wordKind
    split <;> rfl
  rw [addWord, h.lexeme_eq, ok_bind]
  exact h.ends_addToken (.word hword hstop) hliteral

/-- A string is added with what stands between its quotes. -/
theorem ends_addString {body : List Char} (h : At source c ('"' :: body) ('"' :: after) r)
    (hbody : '"' ∉ body) : Ends source c (r.addString source) := by
  have hnext : At source c ('"' :: body ++ ['"']) after { r with current := r.current + 1 } :=
    h.next rfl rfl rfl rfl rfl
  -- the quotes are two characters, so what is between them starts before it ends
  have hslice : slice source (r.start + 1) (r.current + 1 - 1) = .ok body := by
    have hsource : source = (c.read ++ ['"']) ++ (body ++ '"' :: after) := by
      rw [h.source_eq]
      simp
    have hfirst : r.start + 1 = (c.read ++ ['"']).length := by
      rw [h.start_eq, List.length_append, List.length_singleton]
    have hlast : r.current + 1 - 1 = (c.read ++ ['"']).length + body.length := by
      rw [h.current_eq, List.length_append, List.length_singleton, List.length_cons]
      omega
    rw [hfirst, hlast, hsource, slice_append]
  rw [addString, skip_of_getElem? h.getElem?, ok_bind, hslice, ok_bind]
  apply hnext.ends_addToken (.string hbody)
  simp [TokenKind.literal?]

end At

end Reader

end LoxFront
