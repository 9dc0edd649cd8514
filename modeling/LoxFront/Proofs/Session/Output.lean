import LoxFront.Proofs.Session.History
import LoxFront.Session.Pieces
/-!
# Listings without room

Writing in pieces up to the first that fails comes to the same as writing
all of them at once (`writePieces_eq`): behind a piece that was cut off a
writer has no room left. So of a listing the first bytes are written, as
many as the writer takes, wherever in a piece that is. All errors were
reported and all was logged before, hence an output writer without room
changes nothing but the listing and whether the run fails.
-/

namespace LoxFront

/-! ## The pieces are the listing -/

/-- Together the pieces of a token are its entry in the listing. -/
theorem join_pieces (t : Token) : String.join t.pieces = t.display ++ "\n" := by
  unfold Token.pieces Token.display
  cases t.literal <;> simp [String.join_cons, String.append_assoc]

theorem flatten_map_encode (texts : List String) :
    (texts.map encode).flatten = encode (String.join texts) := by
  induction texts with
  | nil => rfl
  | cons text rest ih =>
    rw [List.map_cons, List.flatten_cons, ih, String.join_cons, encode_append]

/-- **The pieces of all tokens, one behind the other, are the listing.** -/
theorem flatten_pieces (tokens : List Token) :
    (tokens.flatMap fun t => t.pieces.map encode).flatten = encode (listing tokens) := by
  induction tokens with
  | nil => rfl
  | cons t rest ih =>
    have hlisting : listing (t :: rest) = t.display ++ "\n" ++ listing rest := String.join_cons
    rw [List.flatMap_cons, List.flatten_append, flatten_map_encode, join_pieces, ih, hlisting,
      encode_append _ (listing rest)]

/-! ## Writing piece by piece -/

/-- A writer that has cut something off takes nothing more. -/
theorem accepted_of_incomplete {out : Room} {first : Bytes}
    (h : (out.deliver first).complete = false) (second : Bytes) :
    ((out.deliver first).room.deliver second).accepted = [] := by
  cases out with
  | unlimited => cases h
  | bytes n =>
    have hfull : n - first.length = 0 := by
      have hlong : ¬first.length ≤ n := of_decide_eq_false h
      omega
    show second.take (n - first.length) = []
    rw [hfull, List.take_zero]

namespace Session

theorem write_nil (out : Room) : write [] out = .nothing := by
  cases out with
  | unlimited => rfl
  | bytes n => simp [write, Room.deliver, Outcome.ofOutput, Outcome.nothing]

/-- **Writing two texts at once**: the second comes behind the first if all
of that was written. -/
theorem write_append (first second : Bytes) (out : Room) :
    write (first ++ second) out =
      if (out.deliver first).complete then
        .ofOutput (out.deliver first).accepted ++ write second (out.deliver first).room
      else { Outcome.ofOutput (out.deliver first).accepted with failure := some .sinkFull } := by
  rw [write, Room.deliver_append]
  cases hfirst : (out.deliver first).complete with
  | true =>
    simp only [hfirst, Bool.true_and]
    rfl
  | false =>
    simp only [hfirst, accepted_of_incomplete hfirst, Bool.false_and, List.append_nil]
    rfl

/-- **Writing pieces is writing them at once.** -/
theorem writePieces_eq (pieces : List Bytes) (out : Room) :
    writePieces pieces out = write pieces.flatten out := by
  induction pieces generalizing out with
  | nil => exact (write_nil out).symm
  | cons piece rest ih => rw [writePieces, List.flatten_cons, write_append, ih]

/-- Writing token by token is writing the listing at once. -/
theorem writeTokens_eq (tokens : List Token) (out : Room) :
    writeTokens tokens out = write (encode (listing tokens)) out := by
  rw [writeTokens, writePieces_eq, flatten_pieces]

/-! ## A listing that is cut off -/

/-- **The listing of one was cut off** behind so many bytes, and that of the
other was not; they are the same in all else. -/
structure CutOff (limit : Nat) (limited full : Outcome × Session) : Prop where
  output : limited.1.output = full.1.output.take limit
  failure : limited.1.failure = if limit < full.1.output.length then some .sinkFull else none
  diagnostics : limited.1.diagnostics = full.1.diagnostics
  log : limited.1.log = full.1.log
  session : limited.2 = full.2

/-- **A run into so many bytes** is the run cut off there. -/
theorem cutOff_run (s : Session) (source : String) (limit : Nat) :
    CutOff limit (s.run source (.bytes limit)) (s.run source .unlimited) where
  output := by
    rw [output_run, output_run_unlimited]
    rfl
  failure := by
    rw [failure_run, output_run_unlimited]
    by_cases h : limit < (scan source).listingBytes.length
    · rw [if_pos h, if_neg]
      simpa [Room.deliver] using h
    · rw [if_neg h, if_pos]
      simpa [Room.deliver] using h
  diagnostics := rfl
  log := rfl
  session := rfl

/-- What was done before, without output, takes nothing from the room. -/
theorem CutOff.append {limit : Nat} {limited full : Outcome × Session}
    (h : CutOff limit limited full) {before : Outcome} (houtput : before.output = [])
    (hfailure : before.failure = none) :
    CutOff limit (before ++ limited.1, limited.2) (before ++ full.1, full.2) where
  output := by
    rw [Outcome.output_append, Outcome.output_append, houtput, List.nil_append, List.nil_append,
      h.output]
  failure := by
    rw [Outcome.failure_append, Outcome.output_append, houtput, hfailure, List.nil_append,
      Option.none_or, h.failure]
  diagnostics := congrArg (before.diagnostics ++ ·) h.diagnostics
  log := congrArg (before.log ++ ·) h.log
  session := h.session

theorem cutOff_runFile {content : Except Failure Bytes} {source : String}
    (h : content.toOption.bind decode? = some source) (s : Session) (path : String) (limit : Nat) :
    CutOff limit (s.runFile path content (.bytes limit)) (s.runFile path content .unlimited) := by
  rw [runFile_of_text h, runFile_of_text h]
  exact (cutOff_run s source limit).append rfl rfl

/-- **An output writer that fails cuts off the listing and nothing else.**
Whatever the session, with a writer that takes so many bytes a run writes
the first ones of the listing it writes to one that never fails, and it
fails if the listing is longer and not otherwise. Diagnostics, log and flag
are the same, and so it is with a file that is read as text. A run writes
token by token and piece by piece, when all events of the scan are taken
note of, and gives its writer nothing behind the first piece that fails. -/
theorem run_limited_output (s : Session) (source : String) (limit : Nat) :
    CutOff limit (s.run source (.bytes limit)) (s.run source .unlimited) ∧
      (∀ (path : String) (content : Bytes), decode? content = some source →
        CutOff limit (s.runFile path (.ok content) (.bytes limit))
          (s.runFile path (.ok content) .unlimited)) ∧
      (s.run source .unlimited).1.output = encode (listing (scan source).tokens) ∧
      (s.run source .unlimited).1.failure = none ∧
      (∀ out : Room, s.run source out =
        ((s.observeAll (scan source).events).1 ++ .ofLog (scan source).summary ++
          writeTokens (scan source).tokens out, (s.observeAll (scan source).events).2)) ∧
      Failure.sinkFull.message = "sink full" := by
  refine ⟨cutOff_run s source limit, fun path content htext => ?file,
    output_run_unlimited s source, failure_run s source .unlimited, fun out => ?pieces, rfl⟩
  case file =>
    have hcontent : (Except.ok (ε := Failure) content).toOption.bind decode? = some source := htext
    exact cutOff_runFile hcontent s path limit
  case pieces =>
    rw [run_eq, writeTokens_eq]
    rfl

/-- The listing is cut inside a character, and the error behind it is
reported in full. -/
example :
    (fresh.run "\"\u00e9\" #" (.bytes 9)).1.output = (encode "String \"\u00e9").take 9 ∧
      (fresh.run "\"\u00e9\" #" (.bytes 9)).1.diagnostics =
        encode "[line 1] Error: Unexpected character\n" ∧
      (fresh.run "\"\u00e9\" #" (.bytes 9)).1.failure = some .sinkFull := by
  decide +kernel

end Session

end LoxFront
