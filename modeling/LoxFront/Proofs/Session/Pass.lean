import LoxFront.Proofs.Lexical.Line
import LoxFront.Proofs.Session.Output
import LoxFront.Session.Pass
/-!
# The records of a run

A run keeps its records apart, and after every step they agree with what
its cursor has found (`Pass.Agrees`): the tokens kept are the tokens found,
the errors counted are as many as were found, and what was written, logged
and told to the session is what the session does with the events found so
far. One step keeps this, so it holds at the end, where the cursor has found
what the scan finds. So a run in steps is `Session.run`
(`Pass.Reached.finish_eq`).
-/

namespace LoxFront

namespace Session

theorem observeAll_concat (s : Session) (es : List ScanEvent) (event : ScanEvent) :
    s.observeAll (es ++ [event]) =
      ((s.observeAll es).1 ++ ((s.observeAll es).2.observe event).1,
        ((s.observeAll es).2.observe event).2) := by
  rw [observeAll_append, observeAll_cons, observeAll, Outcome.append_nothing]

end Session

namespace Pass

variable {s : Session} {source : List Char} {p q : Pass}

/-- **The records agree** with what was found. -/
structure Agrees (s : Session) (p : Pass) : Prop where
  tokens : p.tokens = p.cursor.found.filterMap ScanEvent.token?
  errors : p.errors = (p.cursor.found.filterMap ScanEvent.error?).length
  done : p.done = (s.observeAll p.cursor.found).1
  session : p.session = (s.observeAll p.cursor.found).2

theorem agrees_start (s : Session) (source : List Char) : (start s source).Agrees s :=
  ⟨rfl, rfl, rfl, rfl⟩

/-! ## What a step does -/

@[simp] theorem cursor_record (p : Pass) (event : Option ScanEvent) :
    (p.record event).cursor = p.cursor := by
  rcases event with _ | (_ | _) <;> rfl

/-- **A step reads as its cursor does**, and records the event found, if
there is one. -/
theorem exists_event_of_next? (h : p.next? = some q) :
    ∃ event : Option ScanEvent, p.cursor.next? = some q.cursor ∧
      q.cursor.found = p.cursor.found ++ event.toList ∧
      q = { p with cursor := q.cursor }.record event := by
  unfold next? at h
  split at h
  · cases h
  · next c rest hleft =>
    obtain rfl := Option.some.inj h
    let cut := Segment.first c rest
    refine ⟨cut.1.event? (p.cursor.pass cut.1 cut.2).line, ?_, ?_, ?_⟩
    · rw [cursor_record, Cursor.next?, hleft]
    · rw [cursor_record]
      rfl
    · rw [cursor_record]

/-- There is a step wherever something is left. -/
theorem exists_next? (h : p.cursor.left ≠ []) : ∃ q, p.next? = some q := by
  obtain ⟨c, rest, hleft⟩ := List.exists_cons_of_ne_nil h
  unfold next?
  rw [hleft]
  exact ⟨_, rfl⟩

/-- Recording an event takes records of what was found to records of what
is found with it. -/
theorem Agrees.record (h : p.Agrees s) {c : Cursor} {event : Option ScanEvent}
    (hfound : c.found = p.cursor.found ++ event.toList) :
    ({ p with cursor := c }.record event).Agrees s := by
  -- `keep` and `count` do what the session does with a token and with an error
  rcases event with _ | (t | e)
  case none =>
    rw [Option.toList_none, List.append_nil] at hfound
    exact ⟨hfound ▸ h.tokens, hfound ▸ h.errors, hfound ▸ h.done, hfound ▸ h.session⟩
  case some.token =>
    refine ⟨?_, ?_, ?_, ?_⟩
    · rw [cursor_record, hfound, List.filterMap_append, ← h.tokens]
      rfl
    · rw [cursor_record, hfound, List.filterMap_append, List.length_append, ← h.errors]
      rfl
    · rw [cursor_record, hfound, Option.toList_some, Session.observeAll_concat, ← h.done]
      rfl
    · rw [cursor_record, hfound, Option.toList_some, Session.observeAll_concat, ← h.session]
      rfl
  case some.error =>
    refine ⟨?_, ?_, ?_, ?_⟩
    · rw [cursor_record, hfound, List.filterMap_append, ← h.tokens]
      exact (List.append_nil _).symm
    · rw [cursor_record, hfound, List.filterMap_append, List.length_append, ← h.errors]
      rfl
    · rw [cursor_record, hfound, Option.toList_some, Session.observeAll_concat, ← h.done,
        ← h.session]
      rfl
    · rw [cursor_record, hfound, Option.toList_some, Session.observeAll_concat, ← h.session]
      rfl

/-- **A step keeps the records in agreement.** -/
theorem Agrees.next (h : p.Agrees s) (hstep : p.next? = some q) : q.Agrees s := by
  obtain ⟨event, -, hfound, hq⟩ := exists_event_of_next? hstep
  rw [hq]
  exact h.record hfound

/-! ## Wherever a run stands -/

theorem Reached.agrees (h : Reached s source p) : p.Agrees s := by
  induction h with
  | start => exact agrees_start s source
  | next _ hstep ih => exact ih.next hstep

/-- The cursor of a run is one a scan comes by. -/
theorem Reached.cursor (h : Reached s source p) : Cursor.Reached source p.cursor := by
  induction h with
  | start => exact .start
  | next _ hstep ih =>
    obtain ⟨_, hcursor, -⟩ := exists_event_of_next? hstep
    exact ih.next hcursor

/-- From wherever a run stands it comes to the end. -/
theorem Reached.exists_end {s : Session} {source : List Char} {p : Pass} (h : Reached s source p) :
    ∃ q, Reached s source q ∧ q.cursor.left = [] := by
  by_cases hleft : p.cursor.left = []
  · exact ⟨p, h, hleft⟩
  · obtain ⟨q, hstep⟩ := exists_next? hleft
    have hshorter : q.cursor.left.length < p.cursor.left.length := by
      obtain ⟨_, hcursor, -⟩ := exists_event_of_next? hstep
      exact Cursor.length_left_lt hcursor
    exact (h.next hstep).exists_end
termination_by p.cursor.left.length

/-- **A run in steps is a run.** -/
theorem Reached.finish_eq {source : String} (h : Reached s source.toList p)
    (hend : p.cursor.left = []) (out : Room) : p.finish out = s.run source out := by
  have hscan : scan source = ⟨p.cursor.found, p.cursor.line⟩ := h.cursor.scanChars_eq hend
  rw [finish, Session.run_eq, hscan, Session.writeTokens_eq, h.agrees.tokens, h.agrees.errors,
    h.agrees.done, h.agrees.session]
  rfl

end Pass

end LoxFront
