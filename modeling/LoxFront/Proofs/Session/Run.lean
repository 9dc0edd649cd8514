import LoxFront.Session.Basic
/-!
# What a run does

Taking note of a scan's events writes diagnostics and a log, and nothing
else, and it fails never; a run writes its listing behind that. What is
written depends on the source and on the room for diagnostics. The flag of
a session is only ever set by a report, and read by no one
(`run_congr`).

Where the diagnostics writer has all the room it needs, each error is a
diagnostic of its own.
-/

namespace LoxFront

/-- The bytes of the diagnostic of an error. -/
def ScanError.diagnosticBytes (e : ScanError) : Bytes := encode (diagnostic e.line e.message)

namespace Session

variable {s s' : Session}

/-! ## Events -/

theorem observeAll_cons (s : Session) (event : ScanEvent) (rest : List ScanEvent) :
    s.observeAll (event :: rest) =
      ((s.observe event).1 ++ ((s.observe event).2.observeAll rest).1,
        ((s.observe event).2.observeAll rest).2) := rfl

/-- Events put nothing out. -/
theorem output_observeAll (s : Session) (es : List ScanEvent) : (s.observeAll es).1.output = [] := by
  induction es generalizing s with
  | nil => rfl
  | cons event rest ih =>
    rw [observeAll_cons, Outcome.output_append, ih]
    cases event <;> rfl

theorem failure_observeAll (s : Session) (es : List ScanEvent) :
    (s.observeAll es).1.failure = none := by
  induction es generalizing s with
  | nil => rfl
  | cons event rest ih =>
    rw [observeAll_cons, Outcome.failure_append, ih]
    cases event <;> rfl

/-- **An error among the events sets the flag**, and nothing clears it. -/
theorem hadError_observeAll (s : Session) (es : List ScanEvent) :
    (s.observeAll es).2.hadError = true ↔
      s.hadError = true ∨ es.filterMap ScanEvent.error? ≠ [] := by
  induction es generalizing s with
  | nil => simp [observeAll]
  | cons event rest ih =>
    rw [observeAll_cons, ih]
    cases event with
    | token t => rfl
    | error e => simp [observe, report, ScanEvent.error?]

/-- What an event does depends on the room alone. -/
theorem observe_congr (h : s.room = s'.room) (event : ScanEvent) :
    (s.observe event).1 = (s'.observe event).1 ∧
      (s.observe event).2.room = (s'.observe event).2.room := by
  cases event with
  | token t => exact ⟨rfl, h⟩
  | error e =>
    rw [observe, observe, report, report, h]
    exact ⟨rfl, rfl⟩

/-- The outcome of events, and the room they leave, depend on the room
there was. -/
theorem observeAll_congr (h : s.room = s'.room) (es : List ScanEvent) :
    (s.observeAll es).1 = (s'.observeAll es).1 ∧
      (s.observeAll es).2.room = (s'.observeAll es).2.room := by
  induction es generalizing s s' with
  | nil => exact ⟨rfl, h⟩
  | cons event rest ih =>
    obtain ⟨hfirst, hroom⟩ := observe_congr h event
    obtain ⟨hrest, hlast⟩ := ih hroom
    rw [observeAll_cons, observeAll_cons, hfirst, hrest]
    exact ⟨rfl, hlast⟩

theorem observe_of_unlimited (h : s.room = .unlimited) (e : ScanError) :
    (s.observe (.error e)).1.diagnostics = e.diagnosticBytes ∧
      (s.observe (.error e)).2.room = .unlimited := by
  rw [observe, report, h]
  exact ⟨rfl, rfl⟩

/-- **With room for all diagnostics there is one for each error**, and the
room is there again. -/
theorem observeAll_of_unlimited (h : s.room = .unlimited) (es : List ScanEvent) :
    (s.observeAll es).1.diagnostics =
        (es.filterMap ScanEvent.error?).flatMap ScanError.diagnosticBytes ∧
      (s.observeAll es).2.room = .unlimited := by
  induction es generalizing s with
  | nil => exact ⟨rfl, h⟩
  | cons event rest ih =>
    rw [observeAll_cons, Outcome.diagnostics_append]
    cases event with
    | token t => exact ih h
    | error e =>
      obtain ⟨hfirst, hroom⟩ := observe_of_unlimited h e
      obtain ⟨hrest, hlast⟩ := ih hroom
      refine ⟨?_, hlast⟩
      rw [hfirst, hrest]
      rfl

/-! ## Runs -/

/-- A run tells its events, logs the summary, and writes the listing. -/
theorem run_eq (s : Session) (source : String) (out : Room) :
    s.run source out =
      ((s.observeAll (scan source).events).1 ++ .ofLog (scan source).summary ++
        write (scan source).listingBytes out, (s.observeAll (scan source).events).2) := rfl

/-- The listing is all the output there is. -/
theorem output_run (s : Session) (source : String) (out : Room) :
    (s.run source out).1.output = (out.deliver (scan source).listingBytes).accepted := by
  rw [run_eq, Outcome.output_append, Outcome.output_append, output_observeAll]
  rfl

/-- With room for it, the output of a run is the listing. -/
theorem output_run_unlimited (s : Session) (source : String) :
    (s.run source .unlimited).1.output = (scan source).listingBytes :=
  output_run s source .unlimited

/-- A run fails where its listing does not fit. -/
theorem failure_run (s : Session) (source : String) (out : Room) :
    (s.run source out).1.failure =
      if (out.deliver (scan source).listingBytes).complete then none else some .sinkFull := by
  rw [run_eq, Outcome.failure_append, Outcome.failure_append, failure_observeAll]
  rfl

/-- **A run sets the flag if and only if there are errors**, and never clears
it. -/
theorem hadError_run (s : Session) (source : String) (out : Room) :
    (s.run source out).2.hadError = true ↔ s.hadError = true ∨ (scan source).errors ≠ [] :=
  hadError_observeAll s (scan source).events

/-- **A run does not look at the flag.** -/
theorem run_congr (h : s.room = s'.room) (source : String) (out : Room) :
    (s.run source out).1 = (s'.run source out).1 ∧
      (s.run source out).2.room = (s'.run source out).2.room := by
  obtain ⟨houtcome, hroom⟩ := observeAll_congr h (scan source).events
  rw [run_eq, run_eq, houtcome]
  exact ⟨rfl, hroom⟩

/-- With room for diagnostics, a run writes all of them, and there is as much
room afterwards. -/
theorem run_of_unlimited (h : s.room = .unlimited) (source : String) (out : Room) :
    (s.run source out).1.diagnostics = (scan source).errors.flatMap ScanError.diagnosticBytes ∧
      (s.run source out).2.room = .unlimited := by
  obtain ⟨hdiagnostics, hroom⟩ := observeAll_of_unlimited h (scan source).events
  refine ⟨?_, hroom⟩
  rw [run_eq, Outcome.diagnostics_append, Outcome.diagnostics_append, hdiagnostics]
  exact (List.append_nil _).trans (List.append_nil _)

end Session

end LoxFront
