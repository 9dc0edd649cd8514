import LoxFront.Proofs.Session.History
import LoxFront.Session.Note
/-!
# Diagnostics without room

What a step makes known is its notes, and a session's room alone decides
what becomes of them (`Told`): the diagnostics are delivered as one text
would be, and each note leaves in the log what its own delivery leaves. As
notes can be told in parts (`Told.append`), this goes from an event to a
run, a step and a history. All else a step comes to is the same whatever
the room (`result_perform`), because no step looks at what became of a
diagnostic.
-/

namespace LoxFront

/-! ## Notes and room -/

@[simp] theorem Room.deliver_nil (room : Room) : room.deliver [] = ⟨[], room, true⟩ := by
  cases room with
  | unlimited => rfl
  | bytes n => simp [deliver]

theorem reportBytes_append (a b : List Note) :
    reportBytes (a ++ b) = reportBytes a ++ reportBytes b :=
  List.flatMap_append

theorem reportBytes_cons (note : Note) (rest : List Note) :
    reportBytes (note :: rest) = note.bytes ++ reportBytes rest :=
  List.flatMap_cons

/-- What a writer with this room leaves in the log, delivering note by
note. -/
def Room.log : Room → List Note → List LogEntry
  | _, [] => []
  | room, note :: rest =>
    let sent := room.deliver note.bytes
    note.entries sent.complete ++ sent.room.log rest

/-- A log is that of what came first, and then of the rest in the room that is
left. -/
theorem Room.log_append (room : Room) (a b : List Note) :
    room.log (a ++ b) = room.log a ++ (room.deliver (reportBytes a)).room.log b := by
  induction a generalizing room with
  | nil => simp [log, reportBytes]
  | cons note rest ih =>
    rw [List.cons_append, log, log, ih, reportBytes_cons, deliver_append, List.append_assoc]

/-- With room for everything, each note is logged as one that was written. -/
theorem Room.log_unlimited (notes : List Note) :
    Room.unlimited.log notes = notes.flatMap (Note.entries true) := by
  induction notes with
  | nil => rfl
  | cons note rest ih =>
    rw [log, List.flatMap_cons, ← ih]
    rfl

/-- A diagnostic is never empty, so it takes room. -/
theorem length_diagnostic_pos (line : Nat) (message : String) :
    0 < (encode (diagnostic line message)).length := by
  have hend : (encode "\n").length = 1 := by decide
  have happend : diagnostic line message = s!"[line {line}] Error: {message}" ++ "\n" := rfl
  rw [happend, encode_append, List.length_append, hend]
  exact Nat.succ_pos _

/-- Room that is left behind so many bytes: what is written in full is
told by all bytes up to it. -/
theorem Note.entries_of_room (note : Note) (limit past : Nat) :
    note.entries ((Room.bytes (limit - past)).deliver note.bytes).complete =
      note.entries (decide (past + note.bytes.length ≤ limit)) := by
  cases note with
  | logged entry => rfl
  | reported line message =>
    have hpos := length_diagnostic_pos line message
    have hfits : (encode (diagnostic line message)).length ≤ limit - past ↔
        past + (encode (diagnostic line message)).length ≤ limit := by omega
    exact congrArg (Note.entries · (.reported line message)) (decide_eq_decide.2 hfits)

/-- **Note by note a writer leaves the log of its limit.** -/
theorem Room.log_bytes (limit past : Nat) (notes : List Note) :
    (Room.bytes (limit - past)).log notes =
      (notes.mapIdx fun i note => note.entries
        (decide (past + (reportBytes (notes.take (i + 1))).length ≤ limit))).flatten := by
  induction notes generalizing past with
  | nil => rfl
  | cons note rest ih =>
    have hroom : ((Room.bytes (limit - past)).deliver note.bytes).room =
        .bytes (limit - (past + note.bytes.length)) :=
      congrArg Room.bytes (Nat.sub_sub ..)
    have hpast : ∀ i, past + (reportBytes ((note :: rest).take (i + 1))).length =
        past + note.bytes.length + (reportBytes (rest.take i)).length := by
      intro i
      rw [List.take_succ_cons, reportBytes_cons, List.length_append, Nat.add_assoc]
    rw [log, hroom, ih, note.entries_of_room, List.mapIdx_cons, List.flatten_cons]
    simp only [hpast]
    rfl

/-- **Beside a writer of so many bytes** a warning stands just where a
diagnostic ends beyond them. -/
theorem Room.log_bytes_eq_limitedLog (limit : Nat) (notes : List Note) :
    (Room.bytes limit).log notes = limitedLog limit notes := by
  have hlog := log_bytes limit 0 notes
  simp only [Nat.sub_zero, Nat.zero_add] at hlog
  exact hlog

/-! ## What is told -/

/-- **These notes were told with this room for diagnostics**, and this was
done. -/
structure Told (room : Room) (notes : List Note) (done : Outcome × Session) : Prop where
  diagnostics : done.1.diagnostics = (room.deliver (reportBytes notes)).accepted
  log : done.1.log = room.log notes
  room : done.2.room = (room.deliver (reportBytes notes)).room

/-- What two stretches tell they tell together, the second in the room that
the first has left. -/
theorem Told.append {room : Room} {a b : List Note} {done next : Outcome × Session}
    (h : Told room a done) (h' : Told done.2.room b next) :
    Told room (a ++ b) (done.1 ++ next.1, next.2) where
  diagnostics := by
    rw [reportBytes_append, Room.deliver_append, Outcome.diagnostics_append, h.diagnostics,
      h'.diagnostics, h.room]
  log := by rw [Room.log_append, Outcome.log_append, h.log, h'.log, h.room]
  room := by rw [reportBytes_append, Room.deliver_append, h'.room, h.room]

namespace Session

variable {s s' : Session}

/-- Where nothing goes to the diagnostics or the log, nothing is told. -/
theorem told_nil {outcome : Outcome} (hdiagnostics : outcome.diagnostics = [])
    (hlog : outcome.log = []) (s : Session) : Told s.room [] (outcome, s) := by
  refine ⟨?_, hlog, ?_⟩
  · rw [reportBytes, List.flatMap_nil, Room.deliver_nil]
    exact hdiagnostics
  · rw [reportBytes, List.flatMap_nil, Room.deliver_nil]

theorem told_ofLog (entry : LogEntry) (s : Session) :
    Told s.room [.logged entry] (.ofLog entry, s) := by
  have hbytes : reportBytes [.logged entry] = [] := rfl
  refine ⟨?_, ?_, ?_⟩
  · rw [hbytes, Room.deliver_nil]
    rfl
  · rw [Room.log, Note.bytes, Room.deliver_nil]
    rfl
  · rw [hbytes, Room.deliver_nil]

theorem told_report (line : Nat) (message : String) (s : Session) :
    Told s.room [.reported line message] (s.report line message) := by
  have hbytes : reportBytes [.reported line message] = encode (diagnostic line message) :=
    List.append_nil _
  refine ⟨?_, ?_, ?_⟩
  · rw [hbytes]
    rfl
  · exact (List.append_nil _).symm
  · rw [hbytes]
    rfl

/-- An event of a scan is told as its note. -/
theorem told_observe (event : ScanEvent) (s : Session) :
    Told s.room [event.note] (s.observe event) := by
  cases event with
  | token t => exact told_ofLog (.scanned t) s
  | error e => exact told_report e.line e.message s

theorem told_observeAll (es : List ScanEvent) (s : Session) :
    Told s.room (es.map ScanEvent.note) (s.observeAll es) := by
  induction es generalizing s with
  | nil => exact told_nil rfl rfl s
  | cons event rest ih =>
    rw [observeAll_cons, List.map_cons]
    exact (told_observe event s).append (ih _)

theorem told_run (source : String) (out : Room) (s : Session) :
    Told s.room (sourceNotes source) (s.run source out) := by
  have hevents := told_observeAll (scan source).events s
  have hsummary := told_ofLog (scan source).summary (s.observeAll (scan source).events).2
  have hlisting : Told (s.observeAll (scan source).events).2.room []
      (write (scan source).listingBytes out, (s.observeAll (scan source).events).2) :=
    told_nil rfl rfl _
  have hrun := (hevents.append hsummary).append hlisting
  rwa [List.append_nil] at hrun

theorem told_runFile (path : String) (content : Except Failure Bytes) (out : Room) (s : Session) :
    Told s.room (.logged (.running path) :: (content.toOption.bind decode?).elim [] sourceNotes)
      (s.runFile path content out) := by
  have hstarted := told_ofLog (.running path) s
  cases htext : content.toOption.bind decode? with
  | none =>
    obtain ⟨failure, hfails⟩ := runFile_of_not_text htext path out
    rw [hfails]
    exact hstarted.append (told_nil rfl rfl s)
  | some source =>
    rw [runFile_of_text htext]
    exact hstarted.append (told_run source out s)

theorem told_promptLines (lines : List Bytes) (s : Session) :
    Told s.room (lineNotes lines) (s.promptLines lines) := by
  have hmark : ∀ s : Session, Told s.room [] (.ofOutput (encode promptMark), s) :=
    told_nil rfl rfl
  induction lines using lines_induction generalizing s with
  | nil => exact hmark s
  | broken line rest hline =>
    rw [promptLines_of_not_text hline, lineNotes, hline]
    exact (hmark s).append (told_nil rfl rfl s)
  | text text rest ih =>
    -- clearing the flag leaves the room for the lines that follow
    have hrest := ih ⟨false, (s.run (entry text) .unlimited).2.room⟩
    rw [promptLines_encode, lineNotes, decode?_encode]
    exact ((hmark s).append (told_run (entry text) .unlimited s)).append hrest

/-- **A step tells its notes.** -/
theorem told_perform (step : Step) (s : Session) : Told s.room step.notes (s.perform step) := by
  cases step with
  | run source out => exact told_run source out s
  | runFile path content out => exact told_runFile path content out s
  | prompt input => exact told_promptLines (inputLines input) s
  | report line message => exact told_report line message s

/-- **So does a history.** -/
theorem told_performAll (steps : List Step) (s : Session) :
    (s.performAll steps).flatMap (fun done => done.1.diagnostics) =
        (s.room.deliver (reportBytes (steps.flatMap Step.notes))).accepted ∧
      (s.performAll steps).flatMap (fun done => done.1.log) =
        s.room.log (steps.flatMap Step.notes) := by
  induction steps generalizing s with
  | nil => simp [performAll, reportBytes, Room.log]
  | cons step rest ih =>
    have hstep := told_perform step s
    obtain ⟨hdiagnostics, hlog⟩ := ih (s.perform step).2
    rw [List.flatMap_cons, reportBytes_append, Room.deliver_append, Room.log_append]
    simp only [performAll, List.flatMap_cons, hdiagnostics, hlog, hstep.diagnostics, hstep.log,
      hstep.room, and_self]

/-! ## What room does not change -/

/-- What was done, apart from the diagnostics and the log. -/
def result (done : Outcome × Session) : Bytes × Option Failure × Bool :=
  (done.1.output, done.1.failure, done.2.hadError)

/-- The result of a run is one whatever the room for diagnostics: it depends
on the flag alone. -/
theorem result_run (h : s.hadError = s'.hadError) (source : String) (out : Room) :
    result (s.run source out) = result (s'.run source out) := by
  have hflag : (s.run source out).2.hadError = (s'.run source out).2.hadError := by
    rw [Bool.eq_iff_iff, hadError_run, hadError_run, h]
  rw [result, result, output_run, output_run, failure_run, failure_run, hflag]

/-- What follows on outcomes that show the same shows the same. -/
theorem result_append {first first' : Outcome} {done done' : Outcome × Session}
    (houtput : first.output = first'.output) (hfailure : first.failure = first'.failure)
    (h : result done = result done') :
    result (first ++ done.1, done.2) = result (first' ++ done'.1, done'.2) := by
  simp only [result, Prod.mk.injEq] at h
  obtain ⟨hmore, hfails, hflag⟩ := h
  simp only [result, Outcome.output_append, Outcome.failure_append, houtput, hfailure, hmore,
    hfails, hflag]

theorem result_runFile (h : s.hadError = s'.hadError) (path : String)
    (content : Except Failure Bytes) (out : Room) :
    result (s.runFile path content out) = result (s'.runFile path content out) := by
  cases htext : content.toOption.bind decode? with
  | none =>
    obtain ⟨failure, hfails⟩ := runFile_of_not_text htext path out
    rw [hfails, hfails, result, result, h]
  | some source =>
    rw [runFile_of_text htext, runFile_of_text htext]
    exact result_append rfl rfl (result_run h source out)

theorem result_promptLines (h : s.hadError = s'.hadError) (lines : List Bytes) :
    result (s.promptLines lines) = result (s'.promptLines lines) := by
  induction lines using lines_induction generalizing s s' with
  | nil =>
    rw [promptLines, promptLines, result, result, h]
  | broken line rest hline =>
    rw [promptLines_of_not_text hline, promptLines_of_not_text hline, result, result, h]
  | text text rest ih =>
    have houtput := (output_run s (entry text) .unlimited).trans
      (output_run s' (entry text) .unlimited).symm
    have hfailure := (failure_run s (entry text) .unlimited).trans
      (failure_run s' (entry text) .unlimited).symm
    rw [promptLines_encode, promptLines_encode]
    exact result_append (congrArg (encode promptMark ++ ·) houtput) hfailure (ih rfl)

/-- **Room for diagnostics changes nothing else a step comes to.** -/
theorem result_perform (h : s.hadError = s'.hadError) (step : Step) :
    result (s.perform step) = result (s'.perform step) := by
  cases step with
  | run source out => exact result_run h source out
  | runFile path content out => exact result_runFile h path content out
  | prompt input => exact result_promptLines h (inputLines input)
  | report line message => rfl

/-- **Results do not depend on the room**, over a whole history. -/
theorem map_result_performAll (h : s.hadError = s'.hadError) (steps : List Step) :
    (s.performAll steps).map result = (s'.performAll steps).map result := by
  induction steps generalizing s s' with
  | nil => rfl
  | cons step rest ih =>
    have hstep := result_perform h step
    have hflag : (s.perform step).2.hadError = (s'.perform step).2.hadError :=
      congrArg (fun r => r.2.2) hstep
    rw [performAll, performAll, List.map_cons, List.map_cons, hstep, ih hflag]

/-! ## Warnings -/

theorem level_ne_warn_of_mem_sourceNotes {source : String} {entry : LogEntry}
    (h : .logged entry ∈ sourceNotes source) : entry.level ≠ .warn := by
  rw [sourceNotes, List.mem_append, List.mem_map, List.mem_singleton] at h
  rcases h with ⟨event, -, hevent⟩ | hsummary
  · cases event <;> cases hevent
    exact nofun
  · cases hsummary
    exact nofun

theorem level_ne_warn_of_mem_lineNotes {lines : List Bytes} {entry : LogEntry}
    (h : .logged entry ∈ lineNotes lines) : entry.level ≠ .warn := by
  induction lines using lines_induction with
  | nil => exact absurd h List.not_mem_nil
  | broken line rest hline =>
    rw [lineNotes, hline] at h
    exact absurd h List.not_mem_nil
  | text text rest ih =>
    rw [lineNotes, decode?_encode, List.mem_append] at h
    exact h.elim level_ne_warn_of_mem_sourceNotes ih

/-- What a step itself logs is no warning. -/
theorem level_ne_warn_of_mem_notes {step : Step} {entry : LogEntry}
    (h : .logged entry ∈ step.notes) : entry.level ≠ .warn := by
  cases step with
  | run source out => exact level_ne_warn_of_mem_sourceNotes h
  | runFile path content out =>
    rcases List.mem_cons.1 h with hrunning | hsource
    · cases hrunning
      exact nofun
    · cases htext : content.toOption.bind decode? with
      | none =>
        rw [htext] at hsource
        exact absurd hsource List.not_mem_nil
      | some source =>
        rw [htext] at hsource
        exact level_ne_warn_of_mem_sourceNotes hsource
  | prompt input => exact level_ne_warn_of_mem_lineNotes h
  | report line message => cases List.mem_singleton.1 h

/-- With room for everything, nothing warns. -/
theorem level_ne_warn_of_unlimited {steps : List Step} {entry : LogEntry}
    (h : entry ∈ Room.unlimited.log (steps.flatMap Step.notes)) : entry.level ≠ .warn := by
  rw [Room.log_unlimited, List.mem_flatMap] at h
  obtain ⟨note, hnote, hentry⟩ := h
  obtain ⟨step, -, hstep⟩ := List.mem_flatMap.1 hnote
  cases note with
  | logged own =>
    cases List.mem_singleton.1 hentry
    exact level_ne_warn_of_mem_notes hstep
  | reported line message => exact absurd hentry List.not_mem_nil

/-- **A diagnostics writer that fails changes the diagnostics and nothing
else.** Over any history, with a writer that takes so many bytes, each step
has the output, the failure and the flag that it has with one that never
fails. Of all that is reported the first bytes are written, as many as the
writer takes. The log is that of the steps, and where the last byte of a
diagnostic lies beyond the limit, there is one warning more in the place of
that diagnostic; the steps themselves log no warning. -/
theorem performAll_limited (flag : Bool) (limit : Nat) (steps : List Step) :
    let limited := performAll ⟨flag, .bytes limit⟩ steps
    let full := performAll ⟨flag, .unlimited⟩ steps
    let notes := steps.flatMap Step.notes
    limited.map result = full.map result ∧
      full.flatMap (fun done => done.1.diagnostics) = reportBytes notes ∧
      limited.flatMap (fun done => done.1.diagnostics) = (reportBytes notes).take limit ∧
      full.flatMap (fun done => done.1.log) = notes.flatMap (Note.entries true) ∧
      limited.flatMap (fun done => done.1.log) = limitedLog limit notes ∧
      (∀ entry ∈ full.flatMap fun done => done.1.log, entry.level ≠ .warn) ∧
      (LogEntry.unwritten .sinkFull).message = "could not write error report: sink full" := by
  obtain ⟨hlimited, hlog⟩ := told_performAll steps ⟨flag, .bytes limit⟩
  obtain ⟨hfull, hfullLog⟩ := told_performAll steps ⟨flag, .unlimited⟩
  refine ⟨?_, hfull, hlimited, ?_, ?_, ?_, by decide⟩
  · apply map_result_performAll
    rfl
  · rw [hfullLog, Room.log_unlimited]
  · rw [hlog, Room.log_bytes_eq_limitedLog]
  · intro entry hentry
    rw [hfullLog] at hentry
    exact level_ne_warn_of_unlimited hentry

/-- A diagnostic that fits exactly, one that is cut inside a character and
one that is cut off whole: only the last two leave a warning. -/
example :
    (performAll ⟨false, .bytes 36⟩
        [.report 1 "a", .report 1 "\u00e9", .run "@" (.bytes 2)]).map
      (fun done => (done.1.diagnostics.length, done.1.log.filter (·.level = .warn),
        done.1.failure)) =
      [(18, [], none), (18, [.unwritten .sinkFull], none),
        (0, [.unwritten .sinkFull], some .sinkFull)] := by
  decide +kernel

end Session

end LoxFront
