import LoxFront.Proofs.Session.Limit
import LoxFront.Proofs.Session.Pass
import LoxFront.Session.Placed
/-!
# The log of a run

The events of a source stand at places further and further on
(`pairwise_placedEvents`), so what is told of its tokens and what is told of
its errors can be merged by place, and the merge is in the order of the
source. A run logs just that, whatever room its diagnostics have, and its
summary behind it (`log_run_eq`).
-/

namespace LoxFront

/-! ## Places -/

/-- Without their places, placed events are the events of the segments. -/
theorem map_snd_placedEvents (place line : Nat) (segs : List Segment) :
    (placedEvents place line segs).map Prod.snd = events line segs := by
  induction segs generalizing place line with
  | nil => rfl
  | cons s rest ih =>
    rw [placedEvents, events, List.map_append, ih]
    cases s.event? (line + s.newlines) <;> rfl

/-- No event stands in front of where the places start. -/
theorem le_of_mem_placedEvents {place line : Nat} {segs : List Segment} {p : Nat × ScanEvent}
    (h : p ∈ placedEvents place line segs) : place ≤ p.1 := by
  induction segs generalizing place line with
  | nil => cases h
  | cons s rest ih =>
    rw [placedEvents, List.mem_append, Option.mem_toList, Option.map_eq_some_iff] at h
    rcases h with ⟨event, -, rfl⟩ | hrest
    · exact Nat.le_refl place
    · exact Nat.le_trans (Nat.le_add_right place _) (ih hrest)

/-- **Each event stands further on than the one before it**, as a segment
has a character at least. -/
theorem pairwise_placedEvents (source : List Char) (place line : Nat) :
    (placedEvents place line (segments source)).Pairwise fun p q => p.1 < q.1 := by
  revert place line
  refine segments_induction (motive := fun _ segs => ∀ place line,
    (placedEvents place line segs).Pairwise fun p q => p.1 < q.1) ?nil ?cut source
  case nil => exact fun _ _ => .nil
  case cut =>
    intro s after hcut ih place line
    have hpos := List.length_pos_iff.2 hcut.text_ne_nil
    rw [placedEvents, List.pairwise_append]
    refine ⟨?_, ih _ _, fun p hp q hq => ?_⟩
    · cases s.event? (line + s.newlines) <;> simp
    · rw [Option.mem_toList, Option.map_eq_some_iff] at hp
      obtain ⟨event, -, rfl⟩ := hp
      have hplace := le_of_mem_placedEvents hq
      show place < q.1
      omega

/-- The event of a segment stands where the segment starts. -/
theorem standsAt_of_cut {s : Segment} {before after : List Char} {line : Nat} {event : ScanEvent}
    (h : s.Cut after) (hevent : s.event? line = some event) :
    event.StandsAt (before ++ (s.text ++ after)) before.length := by
  rcases s with ⟨kind | _ | _ | _, text⟩ | text | c <;> cases hevent
  case matched.token =>
    rw [ScanEvent.StandsAt, List.drop_left, Token.ofLexeme, String.toList_ofList]
    exact List.prefix_append text after
  case openString =>
    cases h with
    | @openString body hbody =>
      refine ⟨body, hbody, ?_⟩
      rw [List.drop_left, List.append_nil]
      rfl
  case stray =>
    rw [ScanEvent.StandsAt, List.drop_left]
    exact List.prefix_append [c] after

/-- **Events stand where they are said to** in the source. -/
theorem standsAt_of_mem_placedEvents (source : List Char) {p : Nat × ScanEvent}
    (h : p ∈ placedEvents 0 1 (segments source)) : p.2.StandsAt source p.1 := by
  -- what was read before must be free, since the induction moves it along
  suffices hbefore : ∀ (before : List Char) (line : Nat),
      p ∈ placedEvents before.length line (segments source) →
        p.2.StandsAt (before ++ source) p.1 from hbefore [] 1 h
  clear h
  refine segments_induction (motive := fun source segs => ∀ (before : List Char) (line : Nat),
    p ∈ placedEvents before.length line segs →
      p.2.StandsAt (before ++ source) p.1) ?nil ?cut source
  case nil => exact fun _ _ h => absurd h List.not_mem_nil
  case cut =>
    intro s after hcut ih before line h
    rw [placedEvents, List.mem_append, Option.mem_toList, Option.map_eq_some_iff] at h
    rcases h with ⟨event, hevent, rfl⟩ | hrest
    · exact standsAt_of_cut hcut hevent
    · rw [← List.length_append] at hrest
      rw [← List.append_assoc]
      exact ih _ _ hrest

/-! ## Merging by place -/

section Picking

variable {α : Type} {pick : ScanEvent → Option α}

theorem placedOf_cons_some {p : Nat × ScanEvent} {a : α} (h : pick p.2 = some a)
    (rest : List (Nat × ScanEvent)) :
    placedOf pick (p :: rest) = (p.1, a) :: placedOf pick rest :=
  List.filterMap_cons_some (by rw [h]; rfl)

theorem placedOf_cons_none {p : Nat × ScanEvent} (h : pick p.2 = none)
    (rest : List (Nat × ScanEvent)) : placedOf pick (p :: rest) = placedOf pick rest :=
  List.filterMap_cons_none (by rw [h]; rfl)

/-- What is picked of placed events is what is picked of the events. -/
theorem map_snd_placedOf (es : List (Nat × ScanEvent)) :
    (placedOf pick es).map Prod.snd = (es.map Prod.snd).filterMap pick := by
  rw [placedOf, List.map_filterMap, List.filterMap_map]
  congr 1
  funext p
  cases hp : pick p.2 <;> simp [hp]

/-- What is picked stands where an event does. -/
theorem exists_event_of_mem_placedOf {es : List (Nat × ScanEvent)} {a : Nat × α}
    (h : a ∈ placedOf pick es) : ∃ p ∈ es, p.1 = a.1 := by
  obtain ⟨p, hp, hpick⟩ := List.mem_filterMap.1 h
  obtain ⟨b, -, rfl⟩ := Option.map_eq_some_iff.1 hpick
  exact ⟨p, hp, rfl⟩

/-- What is picked of the events behind one stands behind it. -/
theorem lt_of_mem_placedOf {es : List (Nat × ScanEvent)} {place : Nat}
    (h : ∀ p ∈ es, place < p.1) : ∀ a ∈ placedOf pick es, place < a.1 := by
  intro a ha
  obtain ⟨p, hp, hplace⟩ := exists_event_of_mem_placedOf ha
  exact hplace ▸ h p hp

end Picking

theorem unwritten_subset (room : Room) (before : Bytes) (errors : List (Nat × ScanError)) :
    unwritten room before errors ⊆ errors := by
  induction errors generalizing before with
  | nil => exact List.nil_subset _
  | cons p rest ih =>
    rw [unwritten]
    split
    · exact List.subset_cons_of_subset p (ih _)
    · exact List.cons_subset_cons p (ih _)

theorem mergedLog_nil : mergedLog [] [] = [] := by
  rw [mergedLog, traces, warnings, List.map_nil, List.map_nil, List.nil_merge, List.map_nil]

/-- A token that stands before all errors comes first. -/
theorem mergedLog_token {p : Nat × Token} {tokens : List (Nat × Token)}
    {errors : List (Nat × ScanError)} (h : ∀ q ∈ errors, p.1 < q.1) :
    mergedLog (p :: tokens) errors = .scanned p.2 :: mergedLog tokens errors := by
  cases errors with
  | nil => simp [mergedLog, traces, warnings]
  | cons q rest =>
    have hle : decide (p.1 ≤ q.1) = true := decide_eq_true (Nat.le_of_lt (h q List.mem_cons_self))
    rw [mergedLog, traces, warnings, List.map_cons, List.map_cons,
      List.cons_merge_cons_pos _ _ _ hle]
    rfl

/-- An error that stands before all tokens comes first. -/
theorem mergedLog_error {p : Nat × ScanError} {tokens : List (Nat × Token)}
    {errors : List (Nat × ScanError)} (h : ∀ q ∈ tokens, p.1 < q.1) :
    mergedLog tokens (p :: errors) = .unwritten .sinkFull :: mergedLog tokens errors := by
  cases tokens with
  | nil => simp [mergedLog, traces, warnings]
  | cons q rest =>
    have hlt : ¬decide (q.1 ≤ p.1) = true := by
      simpa using h q List.mem_cons_self
    rw [mergedLog, traces, warnings, List.map_cons, List.map_cons,
      List.cons_merge_cons_neg _ _ _ hlt]
    rfl

/-! ## What is logged of events -/

/-- A diagnostic is written in full if all is that was reported up to its
end: behind one that was cut off there is no room for any. -/
theorem complete_deliver_append {before data : Bytes} (h : 0 < data.length) (room : Room) :
    ((room.deliver before).room.deliver data).complete =
      (room.deliver (before ++ data)).complete := by
  cases room with
  | unlimited => rfl
  | bytes n =>
    have hfits : data.length ≤ n - before.length ↔ (before ++ data).length ≤ n := by
      rw [List.length_append]
      omega
    exact decide_eq_decide.2 hfits

namespace Session

section Reporting

variable {s : Session} {room : Room} {before : Bytes}

/-- A diagnostic that is not written in full is warned of. -/
theorem log_report (hroom : s.room = (room.deliver before).room) (e : ScanError) :
    (s.report e.line e.message).1.log =
      if (room.deliver (before ++ encode (diagnostic e.line e.message))).complete then []
      else [.unwritten .sinkFull] := by
  rw [report, hroom, complete_deliver_append (length_diagnostic_pos e.line e.message)]

/-- A diagnostic takes its room, whether it is written in full or not. -/
theorem room_report (hroom : s.room = (room.deliver before).room) (e : ScanError) :
    (s.report e.line e.message).2.room =
      (room.deliver (before ++ encode (diagnostic e.line e.message))).room := by
  rw [report, hroom, Room.deliver_append]

end Reporting

/-- **Of events in the order of their places the merge is logged**, where
`before` was reported already. -/
theorem log_observeAll {es : List (Nat × ScanEvent)} (hes : es.Pairwise fun p q => p.1 < q.1)
    {s : Session} {room : Room} {before : Bytes} (hroom : s.room = (room.deliver before).room) :
    (s.observeAll (es.map Prod.snd)).1.log =
      mergedLog (placedOf ScanEvent.token? es)
        (unwritten room before (placedOf ScanEvent.error? es)) := by
  induction es generalizing s before with
  | nil => exact mergedLog_nil.symm
  | cons p rest ih =>
    rw [List.pairwise_cons] at hes
    obtain ⟨place, t | e⟩ := p
    case token =>
      have hfirst : ∀ q ∈ unwritten room before (placedOf ScanEvent.error? rest), place < q.1 :=
        fun q hq => lt_of_mem_placedOf hes.1 q (unwritten_subset _ _ _ hq)
      have htokens : placedOf ScanEvent.token? ((place, .token t) :: rest) =
          (place, t) :: placedOf ScanEvent.token? rest := placedOf_cons_some (by rfl) rest
      have herrors : placedOf ScanEvent.error? ((place, .token t) :: rest) =
          placedOf ScanEvent.error? rest := placedOf_cons_none (by rfl) rest
      rw [htokens, herrors, mergedLog_token hfirst, ← ih hes.2 hroom]
      rfl
    case error =>
      have hfirst : ∀ q ∈ placedOf ScanEvent.token? rest, place < q.1 := lt_of_mem_placedOf hes.1
      have htokens : placedOf ScanEvent.token? ((place, .error e) :: rest) =
          placedOf ScanEvent.token? rest := placedOf_cons_none (by rfl) rest
      have herrors : placedOf ScanEvent.error? ((place, .error e) :: rest) =
          (place, e) :: placedOf ScanEvent.error? rest := placedOf_cons_some (by rfl) rest
      have hlog : (s.observeAll (((place, .error e) :: rest).map Prod.snd)).1.log =
          (s.report e.line e.message).1.log ++
            ((s.report e.line e.message).2.observeAll (rest.map Prod.snd)).1.log := rfl
      rw [hlog, log_report hroom, ih hes.2 (room_report hroom e), htokens, herrors, unwritten]
      -- the warning is logged where the error is kept among the unwritten ones
      split
      · rfl
      · rw [mergedLog_error hfirst]
        rfl

/-- **A run logs the merge, and the summary behind it.** -/
theorem log_run_eq (s : Session) (source : String) (out : Room) :
    (s.run source out).1.log =
      mergedLog (placedOf ScanEvent.token? (placedEvents 0 1 (segments source.toList)))
        (unwritten s.room [] (placedOf ScanEvent.error?
          (placedEvents 0 1 (segments source.toList)))) ++ [(scan source).summary] := by
  have hroom : s.room = (s.room.deliver []).room := by rw [Room.deliver_nil]
  have hlog := log_observeAll (pairwise_placedEvents source.toList 0 1) hroom
  rw [map_snd_placedEvents] at hlog
  rw [← hlog]
  exact List.append_nil _

/-- The traces in the log are those of the tokens. -/
theorem filter_trace_observeAll (s : Session) (es : List ScanEvent) :
    ((s.observeAll es).1.log.filter fun entry => entry.level = .trace) =
      (es.filterMap ScanEvent.token?).map LogEntry.scanned := by
  induction es generalizing s with
  | nil => rfl
  | cons event rest ih =>
    rw [observeAll_cons, Outcome.log_append, List.filter_append, ih]
    cases event with
    | token t => rfl
    | error e =>
      have hown : ((s.report e.line e.message).1.log.filter
          fun entry => entry.level = .trace) = [] := by
        rw [report]
        dsimp only
        split <;> rfl
      exact congrArg (· ++ _) hown

/-- The log of a file starts with its path and goes on as that of a run of its
text. -/
theorem log_runFile (s : Session) (path : String) (content : Except Failure Bytes) (out : Room) :
    (s.runFile path content out).1.log = .running path ::
      (content.toOption.bind decode?).elim [] fun source => (s.run source out).1.log := by
  cases htext : content.toOption.bind decode? with
  | none =>
    obtain ⟨failure, hfails⟩ := runFile_of_not_text htext path out
    rw [hfails]
    rfl
  | some source =>
    rw [runFile_of_text htext]
    rfl

/-- **The log agrees with the scan.** Whatever the session and its room for
diagnostics, a run logs a trace of each token but the last and a warning of
each error whose diagnostic was not written in full, merged by their places
in the source, and behind them the summary alone: so many tokens, the line
of the last token, so many errors. A run comes to this step by step, and at
every step the tokens kept are those traced, and the errors counted are
those found. A file that is read as text is logged so behind the entry that
it is run, and of any other file there is that entry alone. -/
theorem run_log (s : Session) (source : String) (out : Room) :
    let placed := placedEvents 0 1 (segments source.toList)
    let tokens := placedOf ScanEvent.token? placed
    let errors := placedOf ScanEvent.error? placed
    (tokens.map Prod.snd = (scan source).tokens.dropLast ∧
        errors.map Prod.snd = (scan source).errors ∧
        placed.Pairwise (fun p q => p.1 < q.1) ∧
        ∀ p ∈ placed, p.2.StandsAt source.toList p.1) ∧
      (∃ line, (scan source).tokens.getLast? = some (.eof line) ∧
        (s.run source out).1.log = mergedLog tokens (unwritten s.room [] errors) ++
          [.summary tokens.length line errors.length]) ∧
      (∃ p, Pass.Reached s source.toList p ∧ p.cursor.left = [] ∧
        p.finish out = s.run source out) ∧
      (∀ p, Pass.Reached s source.toList p → p.Agrees s ∧
        (p.done.log.filter fun entry => entry.level = .trace) = p.tokens.map LogEntry.scanned) ∧
      (∀ (path : String) (content : Except Failure Bytes),
        (s.runFile path content out).1.log = .running path ::
          (content.toOption.bind decode?).elim [] fun text => (s.run text out).1.log) ∧
      (∀ t, (LogEntry.scanned t).level.name = "TRACE" ∧
        (LogEntry.scanned t).message = s!"scanned {t.display}") ∧
      (∀ n line e, (LogEntry.summary n line e).level.name = "DEBUG" ∧
        (LogEntry.summary n line e).message =
          s!"scanned {n} tokens over {line} lines with {e} errors") ∧
      (LogEntry.unwritten .sinkFull).level.name = "WARN" ∧
      ∀ path, (LogEntry.running path).level.name = "INFO" := by
  intro placed tokens errors
  have htokens : tokens.map Prod.snd = (scan source).lexed := by
    rw [map_snd_placedOf, map_snd_placedEvents]
    rfl
  have herrors : errors.map Prod.snd = (scan source).errors := by
    rw [map_snd_placedOf, map_snd_placedEvents]
    rfl
  refine ⟨⟨?tokens, herrors, ?places, fun p hp => standsAt_of_mem_placedEvents _ hp⟩,
    ⟨(scan source).lastLine, ?last, ?log⟩, ?pass, fun p hp => ⟨hp.agrees, ?traces⟩,
    fun path content => log_runFile s path content out, fun _ => ⟨rfl, rfl⟩,
    fun _ _ _ => ⟨rfl, rfl⟩, rfl, fun _ => rfl⟩
  case tokens =>
    rw [htokens, Scan.tokens, List.dropLast_concat]
  case places =>
    exact pairwise_placedEvents source.toList 0 1
  case last =>
    rw [Scan.tokens, List.getLast?_concat]
  case log =>
    have hcount : tokens.length = (scan source).lexed.length := by rw [← htokens, List.length_map]
    have hfaults : errors.length = (scan source).errors.length := by
      rw [← herrors, List.length_map]
    rw [log_run_eq, Scan.summary, hcount, hfaults]
  case pass =>
    have hstart : Pass.Reached s source.toList (.start s source.toList) := .start
    obtain ⟨p, hp, hend⟩ := hstart.exists_end
    exact ⟨p, hp, hend, hp.finish_eq hend out⟩
  case traces =>
    rw [hp.agrees.done, filter_trace_observeAll, hp.agrees.tokens]

/-- Of three diagnostics the second is cut off, so two are warned of, each
in its place between the tokens; the last token is in no trace. -/
example :
    (run ⟨false, .bytes 50⟩ "@ 1\n# 2\n$" .unlimited).1.log =
      [.scanned (.ofLexeme .number ['1'] 1), .unwritten .sinkFull,
        .scanned (.ofLexeme .number ['2'] 2), .unwritten .sinkFull, .summary 2 3 3] := by
  decide +kernel

end Session

end LoxFront
