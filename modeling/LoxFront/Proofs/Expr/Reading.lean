import LoxFront.Expr.PrefixForm
import LoxFront.Proofs.Expr.Printed
import LoxFront.Proofs.Lexical.Line
import LoxFront.Proofs.Lexical.Written
import LoxFront.Proofs.Number.ReadBack
/-!
# Printed trees are read back

A text reads as tokens if these are what a scan comes upon in it wherever
it stands on the first line, as long as no character behind it goes on with
a token (`ReadsAs`). A blank and a closing parenthesis go on with none, so
texts that read as tokens may stand next to each other with a blank between
them and in parentheses, and a printed tree reads as its prefix form, node
by node.
-/

namespace LoxFront

/-- **A text reads as these tokens** before whatever goes on with none. -/
structure ReadsAs (text : List Char) (tokens : List Token) : Prop where
  /-- The text stays on its line. -/
  newline_not_mem : '\n' ∉ text
  /-- The tokens are the events of the text. -/
  events_append : ∀ rest, Halts continuesToken rest →
    events 1 (segments (text ++ rest)) = tokens.map .token ++ events 1 (segments rest)

namespace ReadsAs

variable {text more : List Char} {tokens others : List Token}

/-- A token that can be cut off is read before whatever goes on with
none. -/
theorem of_cut {kind : TokenKind} {after : List Char}
    (h : (Segment.matched (.token kind) text).Cut after) (hkind : kind ≠ .string) :
    ReadsAs text [.ofLexeme kind text 1] := by
  have hline := newline_not_mem_of_cut h hkind
  refine ⟨hline, fun rest hrest => ?_⟩
  have hevents := events_of_cut 1 (h.before hrest)
  rw [Segment.newlines, Segment.text, List.count_eq_zero.2 hline] at hevents
  exact hevents

/-- A text of a rule reads as a token of the rule. -/
theorem of_spells {kind : TokenKind} (h : kind.Spells text) (hkind : kind ≠ .string) :
    ReadsAs text [.ofLexeme kind text 1] :=
  of_cut (cut_of_tokenSpells h) hkind

/-- **With a blank between them** texts read as the tokens of the first and
then those of the second. -/
theorem blank (h : ReadsAs text tokens) (hmore : ReadsAs more others) :
    ReadsAs (text ++ ' ' :: more) (tokens ++ others) := by
  refine ⟨?_, fun rest hrest => ?_⟩
  · rw [List.mem_append, List.mem_cons]
    exact not_or.2 ⟨h.newline_not_mem, not_or.2 ⟨by decide, hmore.newline_not_mem⟩⟩
  · have hblank : (Segment.matched .blank [' ']).Cut (more ++ rest) := .blank rfl
    have hsilent : events 1 (segments (' ' :: (more ++ rest))) =
        events 1 (segments (more ++ rest)) :=
      events_of_silent_cut 1 hblank fun _ => rfl
    rw [List.append_assoc, List.cons_append, h.events_append _ (halts_cons.2 (by decide)), hsilent,
      hmore.events_append rest hrest, List.map_append, List.append_assoc]

/-- **In parentheses** a text reads as its tokens in parentheses. -/
theorem parentheses (h : ReadsAs text tokens) :
    ReadsAs ('(' :: (text ++ [')'])) (inParentheses tokens) := by
  refine ⟨by simp [h.newline_not_mem], fun rest hrest => ?_⟩
  have hopen : (Segment.matched (.token .leftParen) ['(']).Cut (text ++ ')' :: rest) := .mark rfl
  have hclose : (Segment.matched (.token .rightParen) [')']).Cut rest := .mark rfl
  have hopened : events 1 (segments ('(' :: (text ++ ')' :: rest))) =
      .token (.plain .leftParen "(") :: events 1 (segments (text ++ ')' :: rest)) :=
    events_of_cut 1 hopen
  have hclosed : events 1 (segments (')' :: rest)) =
      .token (.plain .rightParen ")") :: events 1 (segments rest) :=
    events_of_cut 1 hclose
  rw [List.cons_append, List.append_assoc, List.singleton_append, hopened,
    h.events_append _ (halts_cons.2 (by decide)), hclosed]
  simp [inParentheses]

/-- A node reads as its name and its parts in parentheses. -/
theorem node {name parts : List Char} {t : Token} (hname : ReadsAs name [t])
    (hparts : ReadsAs parts tokens) :
    ReadsAs (nodeChars name parts) (inParentheses (t :: tokens)) :=
  (hname.blank hparts).parentheses

end ReadsAs

/-! ## Parts of a printed tree -/

/-- A kind with one lexeme has no values. -/
theorem TokenKind.literal?_of_spelling {kind : TokenKind} {s : String}
    (h : kind.spelling? = some s) (lexeme : List Char) : kind.literal? lexeme = none := by
  cases kind <;> first | rfl | cases h

theorem readsAs_spelling {kind : TokenKind} {s : String} (h : kind.spelling? = some s) :
    ReadsAs s.toList [.plain kind s] := by
  have hkind : kind ≠ .string := by
    rintro rfl
    cases h
  have hreads := ReadsAs.of_cut (cut_of_spelling h) hkind
  rwa [Token.ofLexeme, TokenKind.literal?_of_spelling h, String.ofList_toList] at hreads

theorem readsAs_keyword (k : Keyword) :
    ReadsAs k.spelling.toList [.plain (.keyword k) k.spelling] :=
  readsAs_spelling rfl

/-- An operator reads as its kind and lexeme. -/
theorem readsAs_operator {arity : Arity} {o : Operator arity} (h : o.token.IsRead) :
    ReadsAs o.token.lexeme.toList [.plain o.token.kind o.token.lexeme] := by
  obtain ⟨s, hs⟩ := Arity.exists_spelling o.admitted
  rw [h.lexeme_eq hs]
  exact readsAs_spelling hs

theorem readsAs_group : ReadsAs "group".toList [.plain .identifier "group"] := by
  have hspells : TokenKind.identifier.Spells "group".toList := by
    refine ⟨by simp [IsWord, isWordStart, isWordPart], fun k => ?_⟩
    cases k <;> decide
  exact ReadsAs.of_spells hspells (by decide)

/-- A finite number with a clear sign bit reads as itself. -/
theorem readsAs_number {x : Double} (hfinite : x.isFinite = true) (hsign : x.negative = false) :
    ReadsAs x.text.toList [(Value.number x).token] := by
  have hchars := Double.toList_text_of_finite hfinite hsign
  have hreads := ReadsAs.of_spells (Double.spells_text hfinite hsign) (by decide)
  have htoken : Token.ofLexeme .number x.text.toList 1 = (Value.number x).token := by
    rw [Token.ofLexeme, TokenKind.literal?, hchars, Double.nearest_unsignedChars hfinite hsign,
      ← hchars, String.ofList_toList]
    rfl
  rwa [htoken] at hreads

theorem readsAs_display {v : Value} (h : v.Denoted) : ReadsAs v.display.toList [v.token] := by
  cases v with
  | nil => exact readsAs_keyword .nilWord
  | bool b =>
    cases b with
    | false => exact readsAs_keyword .falseWord
    | true => exact readsAs_keyword .trueWord
  | text s => exact h.elim
  | number x => exact readsAs_number h.1 h.2

/-! ## Trees -/

/-- The scan of a text that reads as tokens. -/
theorem ReadsAs.scanChars_eq {text : List Char} {tokens : List Token} (h : ReadsAs text tokens) :
    scanChars text = ⟨tokens.map .token, 1⟩ := by
  have hevents := h.events_append [] (halts_nil _)
  have hline := lastLine_scanChars text
  rw [List.append_nil, segments_nil, events, List.append_nil] at hevents
  rw [List.count_eq_zero.2 h.newline_not_mem] at hline
  rw [scanChars, hevents]
  exact congrArg (Scan.mk _) hline

/-- **A printed tree reads as its prefix form.** -/
theorem readsAs_print {e : Expr} (hvalues : ∀ v ∈ e.values, v.Denoted)
    (hread : ∀ t ∈ e.operatorTokens, t.IsRead) : ReadsAs e.print.toList e.prefixForm := by
  induction e with
  | binary operator left right ihleft ihright =>
    rw [Expr.values, List.forall_mem_append] at hvalues
    rw [Expr.operatorTokens, List.forall_mem_cons, List.forall_mem_append] at hread
    have hparts := (ihleft hvalues.1 hread.2.1).blank (ihright hvalues.2 hread.2.2)
    rw [Expr.toList_print_binary]
    exact (readsAs_operator hread.1).node hparts
  | grouping inner ih =>
    rw [Expr.toList_print_grouping]
    exact readsAs_group.node (ih hvalues hread)
  | literal value => exact readsAs_display (hvalues value List.mem_cons_self)
  | unary operator operand ih =>
    rw [Expr.operatorTokens, List.forall_mem_cons] at hread
    rw [Expr.toList_print_unary]
    exact (readsAs_operator hread.1).node (ih hvalues hread.2)

/-- **A printed tree is scanned as its prefix form**, without an error and
all on line 1, if its values can be denoted and its operators come from
scans, of whatever sources. -/
theorem scan_print (e : Expr) (hvalues : ∀ v ∈ e.values, v.Denoted)
    (hoperators : ∀ t ∈ e.operatorTokens, ∃ source, t ∈ (scan source).tokens) :
    (scan e.print).errors = [] ∧ (scan e.print).tokens = e.prefixForm ++ [.eof 1] := by
  have hreads : ReadsAs e.print.toList e.prefixForm := by
    refine readsAs_print hvalues fun t ht => ?_
    obtain ⟨source, hsource⟩ := hoperators t ht
    exact Expr.isRead_of_mem_operatorTokens ht hsource
  rw [scan, hreads.scanChars_eq, Scan.errors, Scan.tokens, Scan.lexed, List.filterMap_map,
    List.filterMap_map]
  simp [Function.comp_def, ScanEvent.error?, ScanEvent.token?]

/-- A comparison of a negated number and a grouping, with its operators from
two sources: one stood before another equals sign there, one before a
number. -/
def comparison : Expr :=
  .binary ⟨.ofLexeme .greaterEqual ['>', '='] 2, rfl⟩
    (.unary ⟨.ofLexeme .minus ['-'] 1, rfl⟩ (.literal (.number (.ofBits 0x3FE0000000000000))))
    (.grouping (.literal .nil))

theorem scan_print_comparison :
    ((∀ v ∈ comparison.values, v.Denoted) ∧
      ∀ t ∈ comparison.operatorTokens, ∃ source, t ∈ (scan source).tokens) ∧
    (scan comparison.print).errors = [] ∧
    (scan comparison.print).tokens =
      [.plain .leftParen "(", .plain .greaterEqual ">=",
        .plain .leftParen "(", .plain .minus "-",
          (Value.number (.ofBits 0x3FE0000000000000)).token, .plain .rightParen ")",
        .plain .leftParen "(", .plain .identifier "group",
          .plain (.keyword .nilWord) "nil", .plain .rightParen ")",
        .plain .rightParen ")", .eof 1] := by
  have hgreater : (scan "@\n>==").tokens =
      [.ofLexeme .greaterEqual ['>', '='] 2, .ofLexeme .equal ['='] 2, .eof 2] := by decide +kernel
  have hminus : (scan "-1").tokens =
      [.ofLexeme .minus ['-'] 1, .ofLexeme .number ['1'] 1, .eof 1] := by decide +kernel
  have hvalues : ∀ v ∈ comparison.values, v.Denoted := by
    simp only [comparison, Expr.values, List.cons_append, List.nil_append, List.forall_mem_cons]
    exact ⟨⟨by decide +kernel, by decide +kernel⟩, trivial, by simp⟩
  have hoperators : ∀ t ∈ comparison.operatorTokens, ∃ source, t ∈ (scan source).tokens := by
    simp only [comparison, Expr.operatorTokens, List.cons_append, List.nil_append,
      List.forall_mem_cons]
    refine ⟨⟨"@\n>==", ?_⟩, ⟨"-1", ?_⟩, by simp⟩
    · rw [hgreater]
      exact List.mem_cons_self
    · rw [hminus]
      exact List.mem_cons_self
  obtain ⟨herrors, htokens⟩ := scan_print comparison hvalues hoperators
  exact ⟨⟨hvalues, hoperators⟩, herrors, htokens⟩

end LoxFront
