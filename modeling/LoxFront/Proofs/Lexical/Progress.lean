import LoxFront.Proofs.Lexical.ReaderStep
/-!
# The scanner makes progress

Wherever the reader is, it stands where a cursor stands or in the lexeme
behind (`Reader.Reached.exists_cursor`), so it is never at fault
(`Reader.Reached.safe`). In a lexeme each step is a character on, so the
reading of a lexeme ends (`Reader.Within.exists_call`); it is a step of the
cursor (`Reader.Call.exists_next`), and the reader finds what the scan finds
(`Reader.exists_end`).
-/

namespace LoxFront

namespace Reader

variable {source : List Char} {c : Cursor} {r s : Reader}

/-! ## Runs -/

/-- A step taken between two lexemes leads into the next one or behind it. -/
theorem Between.goesOn (h : Between source c r) (hstep : r.step source = .ok (some s)) :
    GoesOn source c (r.current + 1) s := by
  by_cases hleft : c.left = []
  · cases (h.step_end hleft).symm.trans hstep
  · obtain ⟨t, ht, hgoes⟩ := h.exists_step hleft
    cases ht.symm.trans hstep
    exact hgoes

/-- A step taken in a lexeme goes on in it or ends it. -/
theorem Inside.goesOn (h : Inside source c r) (hstep : r.step source = .ok (some s)) :
    GoesOn source c (r.current + 1) s := by
  obtain ⟨t, ht, hgoes⟩ := h.exists_step
  cases ht.symm.trans hstep
  exact hgoes

theorem Inside.phase_ne (h : Inside source c r) : r.phase ≠ .between := by
  obtain ⟨text, after, -, hpart⟩ := h
  intro hphase
  rw [hphase] at hpart
  cases hpart

theorem Inside.bounds (h : Inside source c r) :
    r.start ≤ r.current ∧ r.current ≤ source.length := by
  obtain ⟨text, after, hat, -⟩ := h
  exact hat.bounds

theorem Between.bounds (h : Between source c r) :
    r.start ≤ r.current ∧ r.current ≤ source.length :=
  ⟨h.start_le, h.at_nil.bounds.2⟩

/-- The cursor is at the end just when the reader is. -/
theorem Between.left_eq_nil_iff (h : Between source c r) :
    c.left = [] ↔ r.current = source.length := by
  have hlength := congrArg List.length h.at_nil.source_eq
  rw [List.nil_append, List.length_append] at hlength
  rw [h.current_eq, ← List.length_eq_zero_iff]
  omega

theorem Between.initial (source : List Char) : Between source (.start source) initial :=
  ⟨rfl, Nat.le_refl _, .start, rfl, rfl, rfl, rfl⟩

/-- Wherever a step leads, a cursor stands there. -/
theorem GoesOn.exists_cursor {place : ℕ} (h : GoesOn source c place s) :
    ∃ c, Between source c s ∨ Inside source c s := by
  rcases h with ⟨hinside, -⟩ | ⟨d, -, hbetween⟩
  · exact ⟨c, .inr hinside⟩
  · exact ⟨d, .inl hbetween⟩

/-- **Wherever the reader is, it stands between two lexemes or in one**, where
a cursor stands. -/
theorem Reached.exists_cursor (h : Reached source r) :
    ∃ c, Between source c r ∨ Inside source c r := by
  induction h with
  | initial => exact ⟨_, .inl (.initial source)⟩
  | step _ hstep ih =>
    obtain ⟨c, hbetween | hinside⟩ := ih
    · exact (hbetween.goesOn hstep).exists_cursor
    · exact (hinside.goesOn hstep).exists_cursor

/-- Between two lexemes the reader stands where a cursor stands. -/
theorem Reached.exists_between (h : Reached source r) (hphase : r.phase = .between) :
    ∃ c, Between source c r := by
  obtain ⟨c, hbetween | hinside⟩ := h.exists_cursor
  · exact ⟨c, hbetween⟩
  · exact absurd hphase hinside.phase_ne

/-- **The reader stays within the source and is never at fault.** -/
theorem Reached.safe (h : Reached source r) :
    r.start ≤ r.current ∧ r.current ≤ source.length ∧ ∃ next, r.step source = .ok next := by
  obtain ⟨c, hbetween | hinside⟩ := h.exists_cursor
  · refine ⟨hbetween.bounds.1, hbetween.bounds.2, ?_⟩
    by_cases hleft : c.left = []
    · exact ⟨none, hbetween.step_end hleft⟩
    · obtain ⟨s, hs, -⟩ := hbetween.exists_step hleft
      exact ⟨some s, hs⟩
  · obtain ⟨s, hs, -⟩ := hinside.exists_step
    exact ⟨hinside.bounds.1, hinside.bounds.2, some s, hs⟩

/-! ## Lexemes -/

/-- While a lexeme is read the reader is in it, at least a character on. -/
theorem Within.goesOn (h : Within source r s) (hr : Between source c r) :
    GoesOn source c (r.current + 1) s := by
  induction h with
  | first _ hstep => exact hr.goesOn hstep
  | @next s t _ hphase hstep ih =>
    rcases ih with ⟨hinside, hplace⟩ | ⟨d, -, hbetween⟩
    · exact (hinside.goesOn hstep).imp_left fun ⟨ht, hle⟩ => ⟨ht, by omega⟩
    · exact absurd hbetween.phase_eq hphase

/-- **The reading of a lexeme is a step of the cursor.** -/
theorem Call.exists_next (h : Call source r s) (hr : Between source c r) :
    ∃ d, c.next? = some d ∧ Between source d s := by
  rcases h.1.goesOn hr with ⟨hinside, -⟩ | hnext
  · exact absurd h.2 hinside.phase_ne
  · exact hnext

/-- The reading of a lexeme ends: each step is a character on. -/
theorem Within.exists_call {s : Reader} (h : Within source r s) (hr : Between source c r) :
    ∃ t, Call source r t := by
  rcases h.goesOn hr with ⟨hinside, hplace⟩ | ⟨d, -, hbetween⟩
  · obtain ⟨t, ht, hgoes⟩ := hinside.exists_step
    have hnext := h.next hinside.phase_ne ht
    rcases hgoes with ⟨htinside, hlt⟩ | ⟨d, -, htbetween⟩
    · -- less is left than before, which the source bounds
      have hbound := htinside.bounds.2
      exact hnext.exists_call hr
    · exact ⟨t, hnext, htbetween.phase_eq⟩
  · exact ⟨s, h, hbetween.phase_eq⟩
termination_by source.length - s.current

/-- **Before the end, a call returns.** -/
theorem Between.exists_call (h : Between source c r) (hleft : c.left ≠ []) :
    ∃ s, Call source r s := by
  obtain ⟨s, hs, -⟩ := h.exists_step hleft
  exact (Within.first h.phase_eq hs).exists_call h

/-- **What a lexeme adds** is the event of its segment. -/
theorem Between.addsOne {e : Cursor} (hr : Between source c r) (hs : Between source e s)
    (hnext : c.next? = some e) : r.current < s.current ∧ AddsOne r s := by
  obtain ⟨segment, hcut, -, hread, -, hfound⟩ := Cursor.exists_cut_of_next? hnext
  have hpos := List.length_pos_iff.2 hcut.text_ne_nil
  constructor
  · rw [hr.current_eq, hs.current_eq, hread, List.length_append]
    omega
  · rw [AddsOne, hr.tokens_eq, hr.errors_eq, hs.tokens_eq, hs.errors_eq, hfound,
      List.filterMap_append, List.filterMap_append]
    rcases segment.event? e.line with _ | ⟨t | error⟩
    · exact .inr (.inr ⟨List.append_nil _, List.append_nil _⟩)
    · exact .inl ⟨t, rfl, List.append_nil _⟩
    · exact .inr (.inl ⟨error, List.append_nil _, rfl⟩)

/-- **A call gets on and adds one event at most.** -/
theorem Call.addsOne (h : Call source r s) (hr : Between source c r) :
    r.current < s.current ∧ AddsOne r s := by
  obtain ⟨d, hnext, hs⟩ := h.exists_next hr
  exact hr.addsOne hs hnext

/-- **There are no more lexemes than characters**, and no more tokens and
errors than lexemes. -/
theorem Calls.le_current {n : ℕ} (h : Calls source n r) :
    (∃ c, Between source c r) ∧ n ≤ r.current ∧ r.tokens.length + r.errors.length ≤ n := by
  induction h with
  | zero => exact ⟨⟨_, .initial source⟩, Nat.le_refl _, Nat.le_refl _⟩
  | succ _ hcall ih =>
    obtain ⟨⟨c, hr⟩, hplace, hcount⟩ := ih
    obtain ⟨d, hnext, hs⟩ := hcall.exists_next hr
    obtain ⟨hlt, hadds⟩ := hr.addsOne hs hnext
    refine ⟨⟨d, hs⟩, by omega, ?_⟩
    rcases hadds with ⟨t, htokens, herrors⟩ | ⟨e, htokens, herrors⟩ | ⟨htokens, herrors⟩
    · rw [htokens, herrors, List.length_append, List.length_singleton]
      omega
    · rw [htokens, herrors, List.length_append, List.length_singleton]
      omega
    · rw [htokens, herrors]
      omega

/-- Wherever a cursor stands, the reader comes to. -/
theorem exists_calls (h : Cursor.Reached source c) :
    ∃ n r, Calls source n r ∧ Between source c r := by
  induction h with
  | start => exact ⟨0, initial, .zero, .initial source⟩
  | @next c d _ hnext ih =>
    obtain ⟨n, r, hcalls, hr⟩ := ih
    have hleft : c.left ≠ [] := by
      intro hnil
      rw [Cursor.next?, hnil] at hnext
      cases hnext
    obtain ⟨s, hcall⟩ := hr.exists_call hleft
    obtain ⟨e, hsame, hs⟩ := hcall.exists_next hr
    cases hsame.symm.trans hnext
    exact ⟨n + 1, s, hcalls.succ hcall, hs⟩

/-- At the end the reader has found what the scan finds. -/
theorem exists_end (source : List Char) :
    ∃ n r, Calls source n r ∧ r.step source = .ok none ∧
      (scanChars source).lexed = r.tokens ∧ (scanChars source).errors = r.errors ∧
      (scanChars source).lastLine = r.line := by
  obtain ⟨c, hc, hleft⟩ := (@Cursor.Reached.start source).exists_end
  obtain ⟨n, r, hcalls, hr⟩ := exists_calls hc
  refine ⟨n, r, hcalls, hr.step_end hleft, ?_⟩
  rw [hc.scanChars_eq hleft, Scan.lexed, Scan.errors, hr.tokens_eq, hr.errors_eq, hr.line_eq]
  exact ⟨rfl, rfl, rfl⟩

end Reader

/-- **The scanner makes progress and never fails.** Wherever it is, its places
are in order and within the source, and its step is no fault: it takes a
character only where there is one, cuts out no slice that is not there, and
reads nothing but numerals as numbers. Between two lexemes it is at the end
or reads one more, which ends further on and adds one token, one error or
neither. So it reads at most as many lexemes as there are characters, and
ends with what the scan finds, which is no more either. -/
theorem scan_progress (source : String) :
    (∀ r, Reader.Reached source.toList r →
      r.start ≤ r.current ∧ r.current ≤ source.toList.length ∧
      ∀ fault, r.step source.toList ≠ .error fault) ∧
    (∀ r, Reader.Reached source.toList r → r.phase = .between →
      (r.current = source.toList.length → r.step source.toList = .ok none) ∧
      (r.current < source.toList.length → ∃ s, Reader.Call source.toList r s) ∧
      ∀ s, Reader.Call source.toList r s → r.current < s.current ∧ Reader.AddsOne r s) ∧
    (∀ n r, Reader.Calls source.toList n r → n ≤ source.toList.length) ∧
    (∃ n r, Reader.Calls source.toList n r ∧ r.step source.toList = .ok none ∧
      (scan source).tokens = r.tokens ++ [.eof r.line] ∧ (scan source).errors = r.errors) ∧
    (scan source).lexed.length + (scan source).errors.length ≤ source.toList.length := by
  rw [scan]
  generalize source.toList = source
  have hcalls (n : ℕ) (r : Reader) (h : Reader.Calls source n r) : n ≤ source.length := by
    obtain ⟨⟨c, hr⟩, hplace, -⟩ := h.le_current
    exact Nat.le_trans hplace hr.bounds.2
  obtain ⟨n, last, hlast, hend, htokens, herrors, hline⟩ := Reader.exists_end source
  refine ⟨fun r hr => ?safe, fun r hr hphase => ?call, hcalls,
    ⟨n, last, hlast, hend, ?tokens, herrors⟩, ?count⟩
  case safe =>
    obtain ⟨hstart, hcurrent, next, hnext⟩ := hr.safe
    refine ⟨hstart, hcurrent, fun fault hfault => ?_⟩
    cases hnext.symm.trans hfault
  case call =>
    obtain ⟨c, hc⟩ := hr.exists_between hphase
    refine ⟨fun hplace => hc.step_end (hc.left_eq_nil_iff.2 hplace), fun hplace => ?_,
      fun s hcall => hcall.addsOne hc⟩
    exact hc.exists_call fun hleft =>
      Nat.ne_of_lt hplace (hc.left_eq_nil_iff.1 hleft)
  case count =>
    rw [htokens, herrors]
    exact Nat.le_trans hlast.le_current.2.2 (hcalls n last hlast)
  case tokens => rw [Scan.tokens, htokens, hline]

end LoxFront
