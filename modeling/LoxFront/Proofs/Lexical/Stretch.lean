import LoxFront.Lexical.Mode
import LoxFront.Proofs.Lexical.Cut
/-!
# Segments, as the modes see them

Reading a source by modes tells apart fewer things than cutting it does:
quotes, slashes and newlines. `Segment.Stretch` is what is left of a cut at
this grain. Most segments are plain, which is to say that the mode is code
all over them, and the other five forms have a lemma each wherever a
function of the modes is followed through a source.
-/

namespace LoxFront

/-- A character of the alphabet that changes no mode where it stands in
code. -/
def isPlain (c : Char) : Bool := inAlphabet c && c != '"' && c != '/'

/-- **A cut, as far as modes can tell.** -/
inductive Segment.Stretch : Segment → List Char → Prop
  | plain {rule : Rule} {text after : List Char} :
      (∀ c ∈ text, isPlain c = true) → Stretch (.matched rule text) after
  | slash {after : List Char} :
      Halts (· == '/') after → Stretch (.matched (.token .slash) ['/']) after
  | comment {body after : List Char} :
      '\n' ∉ body → Halts (· != '\n') after → Stretch (.matched .comment ('/' :: '/' :: body)) after
  | string {body after : List Char} :
      '"' ∉ body → Stretch (.matched (.token .string) ('"' :: (body ++ ['"']))) after
  | openString {body : List Char} : '"' ∉ body → Stretch (.openString ('"' :: body)) []
  | stray {c : Char} {after : List Char} : inAlphabet c = false → Stretch (.stray c) after

/-! ## Plain characters -/

/-- A plain character is one of the alphabet. -/
theorem inAlphabet_of_isPlain {c : Char} (h : isPlain c = true) : inAlphabet c = true := by
  simp only [isPlain, Bool.and_eq_true] at h
  exact h.1.1

/-- A mark is plain, being neither a quote nor a slash. -/
theorem isPlain_of_mark {c : Char} {kind : TokenKind} (h : markKind? c = some kind) :
    isPlain c = true := by
  unfold markKind? at h
  split at h <;> cases h <;> decide

/-- The character an operator starts with is plain. -/
theorem isPlain_of_operator {c : Char} {kinds : TokenKind × TokenKind}
    (h : operatorKinds? c = some kinds) : isPlain c = true := by
  unfold operatorKinds? at h
  split at h <;> cases h <;> decide

theorem isPlain_of_isBlank {c : Char} (h : isBlank c = true) : isPlain c = true := by
  simp only [isBlank, Bool.or_eq_true, beq_iff_eq] at h
  obtain (rfl | rfl) | rfl := h <;> decide

/-- What may stand in a word is plain, since no punctuation may. -/
theorem isPlain_of_isWordPart {c : Char} (h : isWordPart c = true) : isPlain c = true := by
  have hpunctuation : c ∉ Segment.punctuation := Segment.not_mem_punctuation (by decide) h
  have hquote : c ≠ '"' := ne_of_mem_of_not_mem (by decide) hpunctuation |>.symm
  have hslash : c ≠ '/' := ne_of_mem_of_not_mem (by decide) hpunctuation |>.symm
  simp [isPlain, inAlphabet, h, hquote, hslash]

theorem isPlain_of_isDigit {c : Char} (h : c.isDigit = true) : isPlain c = true :=
  isPlain_of_isWordPart (by simp [isWordPart, h])

/-- A word is plain all over. -/
theorem isPlain_of_isWord {text : List Char} (h : IsWord text) : ∀ c ∈ text, isPlain c = true := by
  cases text with
  | nil => exact h.elim
  | cons c rest =>
    have hstart : isWordPart c = true := by simp [isWordPart, h.1]
    exact List.forall_mem_cons.2
      ⟨isPlain_of_isWordPart hstart, fun d hd => isPlain_of_isWordPart (h.2 d hd)⟩

/-- A run of digits is plain all over. -/
theorem isPlain_of_isDigits {digits : List Char} (h : IsDigits digits) :
    ∀ c ∈ digits, isPlain c = true :=
  fun c hc => isPlain_of_isDigit (h.2 c hc)

/-- **Every cut is one of the stretches.** -/
theorem Segment.Cut.stretch {s : Segment} {after : List Char} (h : s.Cut after) :
    s.Stretch after := by
  cases h with
  | mark hkind => exact .plain (by simpa using isPlain_of_mark hkind)
  | alone hkinds => exact .plain (by simpa using isPlain_of_operator hkinds)
  | extended hkinds =>
    exact .plain (by simpa using ⟨isPlain_of_operator hkinds, by decide⟩)
  | slash hstop => exact .slash hstop
  | comment hbody hstop => exact .comment hbody hstop
  | string hbody => exact .string hbody
  | openString hbody => exact .openString hbody
  | newline => exact .plain (List.forall_mem_singleton.2 (by decide))
  | blank hc => exact .plain (by simpa using isPlain_of_isBlank hc)
  | whole hdigits => exact .plain (isPlain_of_isDigits hdigits)
  | decimal hwhole hfraction =>
    refine .plain (List.forall_mem_append.2 ⟨isPlain_of_isDigits hwhole, ?_⟩)
    exact List.forall_mem_cons.2 ⟨by decide, isPlain_of_isDigits hfraction⟩
  | word htext => exact .plain (isPlain_of_isWord htext)
  | stray hc => exact .stray hc

/-! ## Where the mode stays -/

/-- Code goes on behind a plain character, whatever follows. -/
theorem after_of_isPlain {c : Char} (rest : List Char) (h : isPlain c = true) :
    Mode.code.after c rest = .code := by
  simp only [isPlain, Bool.and_eq_true, bne_iff_ne] at h
  simp [Mode.after, h]

/-- Code goes on behind a character of no rule: neither quotes nor slashes are
among these. -/
theorem after_of_not_inAlphabet {c : Char} (rest : List Char) (h : inAlphabet c = false) :
    Mode.code.after c rest = .code := by
  have hquote : c ≠ '"' := by rintro rfl; exact absurd h (by decide)
  have hslash : c ≠ '/' := by rintro rfl; exact absurd h (by decide)
  simp [Mode.after, hquote, hslash]

/-- A slash with no second one behind it. -/
theorem after_slash {rest : List Char} (h : Halts (· == '/') rest) :
    Mode.code.after '/' rest = .code := by
  have hhead : rest.head? ≠ some '/' := fun hslash => absurd (h '/' hslash) (by decide)
  simp [Mode.after, hhead]

/-- A string goes on over its body. -/
theorem after_string {body : List Char} (h : '"' ∉ body) :
    ∀ c ∈ body, ∀ rest, Mode.string.after c rest = .string :=
  fun _ hc _ => if_neg (ne_of_mem_of_not_mem hc h)

/-- A comment goes on over its body. -/
theorem after_comment {body : List Char} (h : '\n' ∉ body) :
    ∀ c ∈ body, ∀ rest, Mode.comment.after c rest = .comment :=
  fun _ hc _ => if_neg (ne_of_mem_of_not_mem hc h)

end LoxFront
