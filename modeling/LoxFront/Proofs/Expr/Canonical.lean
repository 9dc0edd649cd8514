import LoxFront.Proofs.Expr.Printed
import LoxFront.Proofs.Number.ReadBack
/-!
# The printed form is canonical

Where a printed tree ends can be told from its text, because a value has
neither a blank nor a parenthesis in it and every other node is in
parentheses. So of two texts that are one, each a printed tree and
something behind it that starts with a blank or a closing parenthesis, the
trees have one form and the rest is the same (`Decodes`). This goes by the
constructors of the first tree: the name tells a grouping from an operator,
and what follows the first operand tells an operator between two operands
from one before its operand.
-/

namespace LoxFront

/-! ## Values -/

namespace Value

variable {v w : Value} {x y : Double}

/-- A value other than a text has none of the characters that stand around
it. -/
theorem not_mem_display (hv : ∀ s, v ≠ .text s) {c : Char} (hc : c ∈ " ()".toList) :
    c ∉ v.display.toList := by
  have hcases : c = ' ' ∨ c = '(' ∨ c = ')' := by simpa using hc
  cases v with
  | nil => obtain rfl | rfl | rfl := hcases <;> decide
  | bool b => cases b <;> obtain rfl | rfl | rfl := hcases <;> decide
  | text s => exact (hv s rfl).elim
  | number x =>
    obtain rfl | rfl | rfl := hcases <;> exact Double.not_mem_text (by decide) (by decide) x

/-- Values that are alike are displayed as one: the same value, or two NaNs. -/
theorem Alike.display_eq (h : v.Alike w) : v.display = w.display := by
  cases h with
  | refl => rfl
  | nan hx hy => exact (Double.text_of_isNaN hx).trans (Double.text_of_isNaN hy).symm

/-- Numbers with one text are alike. -/
theorem alike_of_text (h : x.text = y.text) : (number x).Alike (number y) := by
  cases hx : x.isNaN <;> cases hy : y.isNaN
  · exact Double.text_injective hx hy h ▸ .refl
  · exact absurd h.symm (Double.text_ne_of_isNaN hy hx)
  · exact absurd h (Double.text_ne_of_isNaN hx hy)
  · exact .nan hx hy

/-- A word with a letter that no number has is none. -/
theorem text_ne_of_mem {word : String} {c : Char} (hc : c ∈ word.toList)
    (hdigit : c.isDigit = false) (hother : c ∉ ".-infNa".toList) (x : Double) : x.text ≠ word :=
  fun h => Double.not_mem_text hdigit hother x (h ▸ hc)

/-- A number is displayed as no word is: each word has a letter that stands
in no number. -/
theorem text_ne_display (htext : ∀ s, v ≠ .text s) (hnumber : ∀ y, v ≠ .number y) (x : Double) :
    x.text ≠ v.display := by
  cases v with
  | nil => exact text_ne_of_mem (c := 'l') (by decide) (by decide) (by decide) x
  | bool b =>
    cases b with
    | false => exact text_ne_of_mem (c := 'l') (by decide) (by decide) (by decide) x
    | true => exact text_ne_of_mem (c := 'u') (by decide) (by decide) (by decide) x
  | text s => exact (htext s rfl).elim
  | number y => exact (hnumber y rfl).elim

/-- A value that is neither a text nor a number is told by its word. -/
theorem alike_of_word (hv : ∀ s, v ≠ .text s) (hnumber : ∀ x, v ≠ .number x)
    (hw : ∀ s, w ≠ .text s) (h : v.display = w.display) : v.Alike w := by
  cases w with
  | number y => exact absurd h.symm (text_ne_display hv hnumber y)
  | text t => exact (hw t rfl).elim
  | nil =>
    cases v with
    | nil => exact .refl
    | bool b => cases b <;> exact absurd h (by decide)
    | text s => exact (hv s rfl).elim
    | number x => exact (hnumber x rfl).elim
  | bool c =>
    cases v with
    | nil => cases c <;> exact absurd h (by decide)
    | bool b =>
      have hbool : ∀ b c, (bool b).display = (bool c).display → b = c := by decide
      exact hbool b c h ▸ .refl
    | text s => exact (hv s rfl).elim
    | number x => exact (hnumber x rfl).elim

/-- **Only values that are one are displayed alike**, texts left aside. -/
theorem alike_of_display (hv : ∀ s, v ≠ .text s) (hw : ∀ s, w ≠ .text s)
    (h : v.display = w.display) : v.Alike w := by
  cases v with
  | nil => exact alike_of_word hv (by simp) hw h
  | bool b => exact alike_of_word hv (by simp) hw h
  | text s => exact (hv s rfl).elim
  | number x =>
    cases w with
    | nil => exact absurd h (text_ne_display hw (by simp) x)
    | bool c => exact absurd h (text_ne_display hw (by simp) x)
    | text t => exact (hw t rfl).elim
    | number y => exact alike_of_text h

end Value

/-! ## Nodes -/

/-- **A text that can stand behind a printed tree** in another, or nothing:
if it starts with a character, then with one that no value has in it. -/
def Ends (rest : List Char) : Prop := Halts (fun c => c != ' ' && c != ')') rest

theorem ends_blank (rest : List Char) : Ends (' ' :: rest) := halts_cons.2 rfl

theorem ends_parenthesis (rest : List Char) : Ends (')' :: rest) := halts_cons.2 rfl

/-- Nodes that are printed alike have one name. -/
theorem nodeChars_inj_of_blank {name name' parts parts' rest rest' : List Char} (hname : ' ' ∉ name)
    (hname' : ' ' ∉ name') (h : nodeChars name parts ++ rest = nodeChars name' parts' ++ rest') :
    name = name' ∧ parts ++ ')' :: rest = parts' ++ ')' :: rest' := by
  have hsplit : name ++ ' ' :: (parts ++ ')' :: rest) =
      name' ++ ' ' :: (parts' ++ ')' :: rest') := by simpa [nodeChars] using h
  obtain ⟨hnames, hparts⟩ := append_inj_of_halts (p := (· != ' ')) (bne_of_not_mem hname)
    (halts_cons.2 rfl) (bne_of_not_mem hname') (halts_cons.2 rfl) hsplit
  exact ⟨hnames, (List.cons.inj hparts).2⟩

/-- No operator has a blank in its lexeme or is the word of a grouping. -/
theorem Arity.name_of_admits {arity : Arity} {kind : TokenKind} {s : String}
    (h : arity.admits kind = true) (hs : kind.spelling? = some s) :
    ' ' ∉ s.toList ∧ s ≠ "group" := by
  cases arity <;> cases kind <;> cases hs <;> first | decide | cases h

namespace Operator

variable {arity other : Arity} {o : Operator arity} {p : Operator other}
  {parts parts' rest rest' : List Char}

/-- The name of an operator's node has no blank in it, and is not that of a
grouping. -/
theorem name_of_isRead (h : o.token.IsRead) :
    ' ' ∉ o.token.lexeme.toList ∧ o.token.lexeme ≠ "group" := by
  obtain ⟨s, hs⟩ := Arity.exists_spelling o.admitted
  rw [h.lexeme_eq hs]
  exact Arity.name_of_admits o.admitted hs

/-- Operators whose nodes are printed alike are of one kind and lexeme,
whatever their arities. -/
theorem nodeChars_inj (ho : o.token.IsRead) (hp : p.token.IsRead)
    (h : nodeChars o.token.lexeme.toList parts ++ rest =
      nodeChars p.token.lexeme.toList parts' ++ rest') :
    o.token.kind = p.token.kind ∧ o.token.lexeme = p.token.lexeme ∧
      parts ++ ')' :: rest = parts' ++ ')' :: rest' := by
  obtain ⟨hname, hparts⟩ := nodeChars_inj_of_blank (name_of_isRead ho).1 (name_of_isRead hp).1 h
  have hlexeme := String.toList_inj.1 hname
  exact ⟨(ho.eq_of_lexeme hp hlexeme).1, hlexeme, hparts⟩

/-- No operator's node is printed as a grouping is. -/
theorem nodeChars_ne_group (ho : o.token.IsRead) :
    nodeChars o.token.lexeme.toList parts ++ rest ≠
      nodeChars "group".toList parts' ++ rest' := by
  intro h
  obtain ⟨hname, -⟩ := nodeChars_inj_of_blank (name_of_isRead ho).1 (by decide) h
  exact (name_of_isRead ho).2 (String.toList_inj.1 hname)

end Operator

namespace Expr

/-- A tree that its text is meant to tell: it has no texts, and its
operators were read. -/
structure Legible (e : Expr) : Prop where
  ne_text : ∀ v ∈ e.values, ∀ s, v ≠ .text s
  isRead : ∀ t ∈ e.operatorTokens, t.IsRead

theorem legible_of_scanned {e : Expr} (hvalues : ∀ v ∈ e.values, ∀ s, v ≠ .text s)
    (hoperators : ∀ t ∈ e.operatorTokens, ∃ source, t ∈ (scan source).tokens) : e.Legible := by
  refine ⟨hvalues, fun t ht => ?_⟩
  obtain ⟨source, hsource⟩ := hoperators t ht
  exact isRead_of_mem_operatorTokens ht hsource

variable {left right inner operand : Expr}

theorem Legible.binary {o : BinaryOperator} (h : (binary o left right).Legible) :
    o.token.IsRead ∧ left.Legible ∧ right.Legible := by
  obtain ⟨hvalues, hread⟩ := h
  rw [values, List.forall_mem_append] at hvalues
  rw [operatorTokens, List.forall_mem_cons, List.forall_mem_append] at hread
  exact ⟨hread.1, ⟨hvalues.1, hread.2.1⟩, ⟨hvalues.2, hread.2.2⟩⟩

theorem Legible.grouping (h : (grouping inner).Legible) : inner.Legible := ⟨h.1, h.2⟩

theorem Legible.literal {v : Value} (h : (literal v).Legible) : ∀ s, v ≠ .text s :=
  h.ne_text v List.mem_cons_self

theorem Legible.unary {o : UnaryOperator} (h : (unary o operand).Legible) :
    o.token.IsRead ∧ operand.Legible := by
  obtain ⟨hvalues, hread⟩ := h
  rw [operatorTokens, List.forall_mem_cons] at hread
  exact ⟨hread.1, ⟨hvalues, hread.2⟩⟩

/-- **A tree is told from its text**, and so is where it ends. -/
def Decodes (e : Expr) : Prop :=
  ∀ ⦃e' : Expr⦄ ⦃rest rest' : List Char⦄, e'.Legible → Ends rest → Ends rest' →
    e.print.toList ++ rest = e'.print.toList ++ rest' → e.SameForm e' ∧ rest = rest'

/-- A value starts with no parenthesis. -/
theorem display_append_ne {v : Value} (hv : ∀ s, v ≠ .text s) {rest tail : List Char}
    (hrest : Ends rest) : v.display.toList ++ rest ≠ '(' :: tail := by
  intro h
  have hparenthesis := Value.not_mem_display hv (c := '(') (by decide)
  cases hdisplay : v.display.toList with
  | nil =>
    rw [hdisplay, List.nil_append] at h
    rw [h] at hrest
    exact absurd (halts_cons.1 hrest) (by decide)
  | cons c display =>
    rw [hdisplay, List.cons_append] at h
    rw [hdisplay, (List.cons.inj h).1] at hparenthesis
    exact hparenthesis List.mem_cons_self

/-- A literal is told: its value ends at the first blank or parenthesis. -/
theorem decodes_literal {v : Value} (hv : ∀ s, v ≠ .text s) : Decodes (literal v) := by
  intro e' rest rest' he' hrest hrest' h
  have hends : ∀ {w : Value}, (∀ s, w ≠ .text s) →
      ∀ c ∈ w.display.toList, (c != ' ' && c != ')') = true := by
    intro w hw c hc
    simp only [Bool.and_eq_true, bne_iff_ne]
    exact ⟨ne_of_mem_of_not_mem hc (Value.not_mem_display hw (by decide)),
      ne_of_mem_of_not_mem hc (Value.not_mem_display hw (by decide))⟩
  rw [print_literal] at h
  cases e' with
  | literal w =>
    rw [print_literal] at h
    obtain ⟨hdisplay, hrests⟩ :=
      append_inj_of_halts (hends hv) hrest (hends he'.literal) hrest' h
    exact ⟨.literal (Value.alike_of_display hv he'.literal (String.toList_inj.1 hdisplay)), hrests⟩
  | binary o left right =>
    rw [toList_print_binary] at h
    exact (display_append_ne hv hrest h).elim
  | grouping inner =>
    rw [toList_print_grouping] at h
    exact (display_append_ne hv hrest h).elim
  | unary o operand =>
    rw [toList_print_unary] at h
    exact (display_append_ne hv hrest h).elim

/-- A binary node is told when its operands are: the blank behind the first
says that there is a second. -/
theorem decodes_binary {o : BinaryOperator} (ho : o.token.IsRead) (hleft : Decodes left)
    (hright : Decodes right) : Decodes (binary o left right) := by
  intro e' rest rest' he' hrest hrest' h
  rw [toList_print_binary] at h
  cases e' with
  | literal w =>
    rw [print_literal] at h
    exact (display_append_ne he'.literal hrest' h.symm).elim
  | binary p left' right' =>
    obtain ⟨hp, hleft', hright'⟩ := he'.binary
    rw [toList_print_binary] at h
    obtain ⟨hkind, hlexeme, hparts⟩ := Operator.nodeChars_inj ho hp h
    rw [List.append_assoc, List.append_assoc] at hparts
    obtain ⟨hsame, hbehind⟩ := hleft hleft' (ends_blank _) (ends_blank _) hparts
    obtain ⟨hsame', hclose⟩ :=
      hright hright' (ends_parenthesis _) (ends_parenthesis _) (List.cons.inj hbehind).2
    exact ⟨.binary hkind hlexeme hsame hsame', (List.cons.inj hclose).2⟩
  | grouping inner =>
    rw [toList_print_grouping] at h
    exact (Operator.nodeChars_ne_group ho h).elim
  | unary p operand =>
    -- behind the first operand one node goes on with a second, and the other ends
    obtain ⟨hp, hoperand⟩ := he'.unary
    rw [toList_print_unary] at h
    obtain ⟨-, -, hparts⟩ := Operator.nodeChars_inj ho hp h
    rw [List.append_assoc] at hparts
    obtain ⟨-, hbehind⟩ := hleft hoperand (ends_blank _) (ends_parenthesis _) hparts
    exact absurd (List.cons.inj hbehind).1 (by decide)

theorem decodes_grouping (hinner : Decodes inner) : Decodes (grouping inner) := by
  intro e' rest rest' he' hrest hrest' h
  rw [toList_print_grouping] at h
  cases e' with
  | literal w =>
    rw [print_literal] at h
    exact (display_append_ne he'.literal hrest' h.symm).elim
  | binary p left right =>
    rw [toList_print_binary] at h
    exact (Operator.nodeChars_ne_group he'.binary.1 h.symm).elim
  | grouping inner' =>
    rw [toList_print_grouping] at h
    obtain ⟨-, hparts⟩ := nodeChars_inj_of_blank (by decide) (by decide) h
    obtain ⟨hsame, hclose⟩ :=
      hinner he'.grouping (ends_parenthesis _) (ends_parenthesis _) hparts
    exact ⟨.grouping hsame, (List.cons.inj hclose).2⟩
  | unary p operand =>
    rw [toList_print_unary] at h
    exact (Operator.nodeChars_ne_group he'.unary.1 h.symm).elim

/-- A unary node is told when its operand is: the parenthesis behind it says
that there is no second. -/
theorem decodes_unary {o : UnaryOperator} (ho : o.token.IsRead) (hoperand : Decodes operand) :
    Decodes (unary o operand) := by
  intro e' rest rest' he' hrest hrest' h
  rw [toList_print_unary] at h
  cases e' with
  | literal w =>
    rw [print_literal] at h
    exact (display_append_ne he'.literal hrest' h.symm).elim
  | binary p left right =>
    obtain ⟨hp, hleft, -⟩ := he'.binary
    rw [toList_print_binary] at h
    obtain ⟨-, -, hparts⟩ := Operator.nodeChars_inj ho hp h
    rw [List.append_assoc] at hparts
    obtain ⟨-, hbehind⟩ := hoperand hleft (ends_parenthesis _) (ends_blank _) hparts
    exact absurd (List.cons.inj hbehind).1 (by decide)
  | grouping inner =>
    rw [toList_print_grouping] at h
    exact (Operator.nodeChars_ne_group ho h).elim
  | unary p operand' =>
    obtain ⟨hp, hoperand'⟩ := he'.unary
    rw [toList_print_unary] at h
    obtain ⟨hkind, hlexeme, hparts⟩ := Operator.nodeChars_inj ho hp h
    obtain ⟨hsame, hclose⟩ :=
      hoperand hoperand' (ends_parenthesis _) (ends_parenthesis _) hparts
    exact ⟨.unary hkind hlexeme hsame, (List.cons.inj hclose).2⟩

/-- **Every legible tree is told from its text.** -/
theorem decodes {e : Expr} (h : e.Legible) : Decodes e := by
  induction e with
  | binary o left right ihleft ihright =>
    obtain ⟨ho, hleft, hright⟩ := h.binary
    exact decodes_binary ho (ihleft hleft) (ihright hright)
  | grouping inner ih => exact decodes_grouping (ih h.grouping)
  | literal v => exact decodes_literal h.literal
  | unary o operand ih =>
    obtain ⟨ho, hoperand⟩ := h.unary
    exact decodes_unary ho (ih hoperand)

/-! ## Trees -/

/-- Trees of one form are printed alike. -/
theorem SameForm.print_eq {e e' : Expr} (h : e.SameForm e') : e.print = e'.print := by
  induction h with
  | binary _ hlexeme _ _ ihleft ihright =>
    rw [← String.toList_inj, toList_print_binary, toList_print_binary, hlexeme, ihleft, ihright]
  | grouping _ ih => rw [← String.toList_inj, toList_print_grouping, toList_print_grouping, ih]
  | literal halike => exact halike.display_eq
  | unary _ hlexeme _ ih =>
    rw [← String.toList_inj, toList_print_unary, toList_print_unary, hlexeme, ih]

/-- **The printed form is canonical.** Trees without texts, whose operators
come from scans of whatever sources, are printed alike if and only if they
have one form: one shape, one kind and lexeme at every operator, and at
every literal one value, bit for bit unless both are NaNs. -/
theorem print_eq_iff (e e' : Expr)
    (hvalues : ∀ v ∈ e.values ++ e'.values, ∀ s, v ≠ .text s)
    (hoperators : ∀ t ∈ e.operatorTokens ++ e'.operatorTokens,
      ∃ source, t ∈ (scan source).tokens) :
    e.print = e'.print ↔ e.SameForm e' := by
  rw [List.forall_mem_append] at hvalues hoperators
  have hfirst := legible_of_scanned hvalues.1 hoperators.1
  have hsecond := legible_of_scanned hvalues.2 hoperators.2
  refine ⟨fun h => ?_, SameForm.print_eq⟩
  have htext : e.print.toList ++ [] = e'.print.toList ++ [] := by rw [h]
  exact (decodes hfirst hsecond (halts_nil _) (halts_nil _) htext).1

/-- The number with these bits, behind a unary minus on this line. -/
def negation (line : Nat) (bits : UInt64) : Expr :=
  .unary ⟨.ofLexeme .minus ['-'] line, rfl⟩ (.literal (.number (.ofBits bits)))

/-- The number minus one, as a literal. -/
def minusOne : Expr := .literal (.number (.ofBits 0xBFF0000000000000))

/-- One behind a minus is not printed as minus one is, and NaNs behind a
minus are printed alike, whatever their bits and the line of the minus. -/
theorem print_eq_iff_negation :
    ((∀ v ∈ (negation 1 0x3FF0000000000000).values ++ minusOne.values, ∀ s, v ≠ .text s) ∧
        ∀ t ∈ (negation 1 0x3FF0000000000000).operatorTokens ++ minusOne.operatorTokens,
          ∃ source, t ∈ (scan source).tokens) ∧
      (negation 1 0x3FF0000000000000).print ≠ minusOne.print ∧
      (negation 1 0x7FF8000000000000).print = (negation 2 0xFFF0000000000001).print := by
  have hscan : (scan "-").tokens = [.ofLexeme .minus ['-'] 1, .eof 1] := by decide +kernel
  have hscan' : (scan "\n-1").tokens =
      [.ofLexeme .minus ['-'] 2, .ofLexeme .number ['1'] 2, .eof 2] := by decide +kernel
  have hminus : ∃ source, .ofLexeme .minus ['-'] 1 ∈ (scan source).tokens :=
    ⟨"-", hscan ▸ List.mem_cons_self⟩
  have hminus' : ∃ source, .ofLexeme .minus ['-'] 2 ∈ (scan source).tokens :=
    ⟨"\n-1", hscan' ▸ List.mem_cons_self⟩
  have hvalues : ∀ v ∈ (negation 1 0x3FF0000000000000).values ++ minusOne.values,
      ∀ s, v ≠ .text s := by
    simp [negation, minusOne, values]
  have hoperators : ∀ t ∈ (negation 1 0x3FF0000000000000).operatorTokens ++
      minusOne.operatorTokens, ∃ source, t ∈ (scan source).tokens := by
    simpa [negation, minusOne, operatorTokens] using hminus
  refine ⟨⟨hvalues, hoperators⟩, fun h => ?_, ?_⟩
  · cases (print_eq_iff _ _ hvalues hoperators).1 h
  · refine (print_eq_iff _ _ (by simp [negation, values]) ?_).2 ?_
    · simpa [negation, operatorTokens] using ⟨hminus, hminus'⟩
    · exact .unary rfl rfl (.literal (.nan (by decide +kernel) (by decide +kernel)))

end Expr

end LoxFront
