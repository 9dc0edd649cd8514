import LoxFront.Proofs.Lexical.ErrorReport
import LoxFront.Proofs.Lexical.LongestMatch
import LoxFront.Session.Placed
/-!
# Where tokens stand

The place of a token is where its segment starts, and there the source is
read in code: no token starts inside a string or a comment. What stands
there goes on with no longer text of any rule, so no token is the front of
a longer one (`mode_and_longest_of_mem_placedEvents`).

Behind a comment the modes are one character late. They leave it with the
newline that ends it, which is a segment of its own; `Resumes` allows for
that.
-/

namespace LoxFront

/-- **The mode in which a segment may start**: code, or what a comment
leaves before its newline. Where nothing is left any mode will do. -/
def Resumes (mode : Mode) (source : List Char) : Prop :=
  mode = .code ∨ (mode = .comment ∧ Halts (· != '\n') source) ∨ source = []

theorem modeAt_zero (mode : Mode) (source : List Char) : modeAt mode source 0 = mode := by
  cases source <;> rfl

/-- Over a text that leaves the mode as it is, the places go on. -/
theorem modeAt_append_of_stay {mode : Mode} {text : List Char}
    (h : ∀ c ∈ text, ∀ tail, mode.after c tail = mode) (rest : List Char) (i : ℕ) :
    modeAt mode (text ++ rest) (text.length + i) = modeAt mode rest i := by
  induction text with
  | nil => rw [List.nil_append, List.length_nil, Nat.zero_add]
  | cons c text ih =>
    rw [List.forall_mem_cons] at h
    rw [List.cons_append, List.length_cons, Nat.add_right_comm, modeAt, h.1, ih h.2]

/-- **Behind a segment that started in code** the next one may start. -/
theorem Segment.Stretch.exists_resumes {s : Segment} {after : List Char} (h : s.Stretch after) :
    ∃ mode, Resumes mode after ∧
      ∀ i, modeAt .code (s.text ++ after) (s.text.length + i) = modeAt mode after i := by
  cases h with
  | plain hplain =>
    exact ⟨.code, .inl rfl,
      modeAt_append_of_stay (fun c hc tail => after_of_isPlain tail (hplain c hc)) after⟩
  | slash hstop =>
    refine ⟨.code, .inl rfl, fun i => ?_⟩
    rw [Segment.text, List.singleton_append, List.length_singleton, Nat.add_comm, modeAt,
      after_slash hstop]
  | @comment body _ hbody hstop =>
    refine ⟨.comment, .inr (.inl ⟨rfl, hstop⟩), fun i => ?_⟩
    have hslashes : modeAt .code ('/' :: '/' :: (body ++ after)) (body.length + i + 1 + 1) =
        modeAt .comment (body ++ after) (body.length + i) := rfl
    rw [← modeAt_append_of_stay (after_comment hbody) after i, ← hslashes]
    congr 1
    simp only [Segment.text, List.length_cons]
    omega
  | @string body _ hbody =>
    refine ⟨.code, .inl rfl, fun i => ?_⟩
    have hquotes : modeAt .string (body ++ '"' :: after) (body.length + (i + 1)) =
        modeAt .code after i := modeAt_append_of_stay (after_string hbody) _ _
    have hopen : modeAt .code ('"' :: (body ++ '"' :: after)) (body.length + (i + 1) + 1) =
        modeAt .string (body ++ '"' :: after) (body.length + (i + 1)) := rfl
    rw [← hquotes, ← hopen]
    simp only [Segment.text, List.cons_append, List.append_assoc, List.nil_append,
      List.length_cons, List.length_append, List.length_nil]
    congr 1
    omega
  | @openString body hbody =>
    refine ⟨.string, .inr (.inr rfl), fun i => ?_⟩
    have hopen : modeAt .code ('"' :: (body ++ [])) (body.length + i + 1) =
        modeAt .string (body ++ []) (body.length + i) := rfl
    rw [← modeAt_append_of_stay (after_string hbody) [] i, ← hopen]
    simp only [Segment.text, List.cons_append, List.length_cons]
    congr 1
    omega
  | stray hc =>
    refine ⟨.code, .inl rfl, fun i => ?_⟩
    rw [Segment.text, List.singleton_append, List.length_singleton, Nat.add_comm, modeAt,
      after_of_not_inAlphabet after hc]

/-- What may start in a comment's mode is the newline that ends it. -/
theorem eq_newline_of_cut {s : Segment} {after : List Char} (h : s.Cut after)
    (hstop : Halts (· != '\n') (s.text ++ after)) : s = .matched .newline ['\n'] := by
  obtain ⟨c, rest, hsource, -⟩ := Segment.first_of_cut h
  have hc : c = '\n' := by
    rw [hsource] at hstop
    simpa using hstop
  have hnewline : (Segment.matched .newline ['\n']).Cut rest := .newline
  exact (h.unique hnewline (by rw [hsource, hc]; rfl)).1

/-- A segment starts in code, unless it is the newline behind a comment. -/
theorem Resumes.code_or_newline {mode : Mode} {s : Segment} {after : List Char}
    (h : Resumes mode (s.text ++ after)) (hcut : s.Cut after) :
    mode = .code ∨ (mode = .comment ∧ s = .matched .newline ['\n']) := by
  rcases h with hcode | ⟨hcomment, hstop⟩ | hnil
  · exact .inl hcode
  · exact .inr ⟨hcomment, eq_newline_of_cut hcut hstop⟩
  · exact (hcut.text_ne_nil (List.append_eq_nil_iff.1 hnil).1).elim

/-- **Behind each segment** the next one may start, in the mode there is. -/
theorem Resumes.exists_next {mode : Mode} {s : Segment} {after : List Char}
    (h : Resumes mode (s.text ++ after)) (hcut : s.Cut after) :
    ∃ next, Resumes next after ∧
      ∀ i, modeAt mode (s.text ++ after) (s.text.length + i) = modeAt next after i := by
  rcases h.code_or_newline hcut with rfl | ⟨rfl, rfl⟩
  · exact hcut.stretch.exists_resumes
  · refine ⟨.code, .inl rfl, fun i => ?_⟩
    rw [Segment.text, List.length_singleton, Nat.add_comm]
    rfl

/-- **A token stands in code, and is the longest text there.** -/
theorem mode_and_longest_of_mem_placedEvents {source : List Char} {p : ℕ × ScanEvent} {t : Token}
    (h : p ∈ placedEvents 0 1 (segments source)) (ht : p.2 = .token t) :
    modeAt .code source p.1 = .code ∧
      (Rule.token t.kind).Longest t.lexeme.toList (source.drop p.1) := by
  -- place, line and mode must be free, since the induction moves them along
  suffices hplaced : ∀ (place line : ℕ) (mode : Mode), Resumes mode source →
      p ∈ placedEvents place line (segments source) → ∃ i, p.1 = place + i ∧
        modeAt mode source i = .code ∧
        (Rule.token t.kind).Longest t.lexeme.toList (source.drop i) by
    obtain ⟨i, hplace, hplaced⟩ := hplaced 0 1 .code (.inl rfl) h
    rwa [hplace, Nat.zero_add]
  clear h
  refine segments_induction (motive := fun source segs => ∀ (place line : ℕ) (mode : Mode),
    Resumes mode source → p ∈ placedEvents place line segs → ∃ i, p.1 = place + i ∧
      modeAt mode source i = .code ∧
      (Rule.token t.kind).Longest t.lexeme.toList (source.drop i)) ?nil ?cut source
  case nil => exact fun _ _ _ _ h => absurd h List.not_mem_nil
  case cut =>
    intro s after hcut ih place line mode hmode h
    rw [placedEvents, List.mem_append, Option.mem_toList, Option.map_eq_some_iff] at h
    rcases h with ⟨event, hevent, rfl⟩ | hrest
    · -- the segment is the token's own
      obtain rfl : event = .token t := ht
      rcases s with ⟨kind | _ | _ | _, text⟩ | _ | _ <;> cases hevent
      refine ⟨0, rfl, ?_, ?_⟩
      · rcases hmode.code_or_newline hcut with rfl | ⟨-, hnewline⟩
        · exact modeAt_zero _ _
        · cases hnewline
      · rw [Token.ofLexeme, String.toList_ofList]
        exact longest_of_cut hcut
    · -- the token stands further on
      obtain ⟨next, hnext, hmodes⟩ := hmode.exists_next hcut
      obtain ⟨i, hplace, hcode, hlongest⟩ := ih _ _ next hnext hrest
      refine ⟨s.text.length + i, by rw [hplace, Nat.add_assoc], by rw [hmodes, hcode], ?_⟩
      rwa [List.drop_length_add_append]

end LoxFront
