import Mathlib.Tactic.Tauto
import LoxFront.Expr.Clear
import LoxFront.Proofs.Expr.Tally
/-!
# Equality of trees

What is compared is equal exactly if it is the same once cleared and has no
NaN in it. This holds of numbers (`Double.beq_iff`) and goes up from them
to values, tokens and trees (`Expr.beq_iff`). To be the same once cleared
is an equivalence, and clearing takes no NaN away, so all laws of such a
comparison follow from that form alone (`ComparesByValue.of_beq_iff`).

What a tree is once cleared can be told from its shape, its operators and
its values, because there is but one tree to these
(`SameShape.eq_of_content`).
-/

namespace LoxFront

/-! ## The laws -/

/-- **A comparison by value**, of things that may have a NaN in them and
have zeros to be cleared: symmetric and transitive; what has a NaN in it
differs from itself, and nothing else does; and what equals itself is equal
to all that is the same once cleared, and to that alone. -/
structure ComparesByValue {α : Type} [BEq α] (hasNaN : α → Bool) (clear : α → α) : Prop where
  symm : ∀ a b : α, (a == b) = true → (b == a) = true
  trans : ∀ a b c : α, (a == b) = true → (b == c) = true → (a == c) = true
  beq_self_iff : ∀ a : α, (a == a) = true ↔ hasNaN a = false
  beq_iff_of_beq_self : ∀ a b : α, (a == a) = true → ((b == a) = true ↔ clear b = clear a)

/-- **The laws follow from what equality comes to.** -/
theorem ComparesByValue.of_beq_iff {α : Type} [BEq α] {hasNaN : α → Bool} {clear : α → α}
    (hbeq : ∀ a b : α, (a == b) = true ↔ clear a = clear b ∧ hasNaN a = false)
    (hclear : ∀ a : α, hasNaN (clear a) = hasNaN a) : ComparesByValue hasNaN clear := by
  have hcongr : ∀ {a b : α}, clear a = clear b → hasNaN a = hasNaN b := by
    intro a b h
    rw [← hclear a, h, hclear]
  refine ⟨fun a b hab => ?symm, fun a b c hab hbc => ?trans, fun a => ?self, fun a b ha => ?same⟩
  case symm =>
    obtain ⟨hsame, hnan⟩ := (hbeq a b).1 hab
    exact (hbeq b a).2 ⟨hsame.symm, (hcongr hsame).symm.trans hnan⟩
  case trans =>
    obtain ⟨hsame, hnan⟩ := (hbeq a b).1 hab
    exact (hbeq a c).2 ⟨hsame.trans ((hbeq b c).1 hbc).1, hnan⟩
  case self =>
    rw [hbeq, and_iff_right rfl]
  case same =>
    have hnan := ((hbeq a a).1 ha).2
    rw [hbeq]
    exact ⟨And.left, fun hsame => ⟨hsame, (hcongr hsame).trans hnan⟩⟩

/-! ## Numbers -/

namespace Double

variable {x y : Double}

/-- Cleared, a zero is the zero without a sign. -/
theorem clear_of_isZero (h : x.isZero = true) : x.clear = ⟨false, 0, by decide⟩ :=
  Double.ext (by simp [clear, h]) (eq_of_beq h)

/-- A double that is no zero stays as it is when cleared. -/
theorem clear_of_not_isZero (h : x.isZero = false) : x.clear = x :=
  Double.ext (by simp [clear, h]) rfl

/-- **Numbers are the same once cleared** if they are the same or both are
zeros. -/
theorem clear_eq_iff : x.clear = y.clear ↔ x = y ∨ x.isZero = true ∧ y.isZero = true := by
  have hzero : x.clear = y.clear → x.isZero = y.isZero := fun h =>
    congrArg (· == 0) (Double.ext_iff.1 h).2
  constructor
  · intro h
    cases hx : x.isZero with
    | true => exact .inr ⟨rfl, (hzero h).symm.trans hx⟩
    | false =>
      have hy := (hzero h).symm.trans hx
      rw [clear_of_not_isZero hx, clear_of_not_isZero hy] at h
      exact .inl h
  · rintro (rfl | ⟨hx, hy⟩)
    · rfl
    · rw [clear_of_isZero hx, clear_of_isZero hy]

/-- **Numbers are equal** if they are the same once cleared, and no NaN. -/
theorem beq_iff : (x == y) = true ↔ x.clear = y.clear ∧ x.isNaN = false := by
  change x.equal y = true ↔ _
  rw [clear_eq_iff, Double.ext_iff]
  simp only [equal, isZero, Bool.and_eq_true, Bool.not_eq_true', Bool.or_eq_true, beq_iff_eq]
  constructor
  · rintro ⟨⟨hnan, hmagnitude⟩, hsign | hzero⟩
    · exact ⟨.inl ⟨hsign, hmagnitude⟩, hnan⟩
    · exact ⟨.inr ⟨hzero, hmagnitude ▸ hzero⟩, hnan⟩
  · rintro ⟨⟨hsign, hmagnitude⟩ | ⟨hx, hy⟩, hnan⟩
    · exact ⟨⟨hnan, hmagnitude⟩, .inl hsign⟩
    · exact ⟨⟨hnan, hx.trans hy.symm⟩, .inr hx⟩

end Double

/-! ## Values and tokens -/

namespace Value

theorem isNaN_clear (v : Value) : v.clear.isNaN = v.isNaN := by cases v <;> rfl

/-- Values are the same once cleared if they are the same or both are zeros. -/
theorem clear_eq_iff {v w : Value} :
    v.clear = w.clear ↔ v = w ∨ v.isZero = true ∧ w.isZero = true := by
  cases v <;> cases w <;> simp [clear, isZero, Double.clear_eq_iff]

/-- Values are equal if they are the same once cleared, and no NaN. -/
theorem beq_iff {v w : Value} : (v == w) = true ↔ v.clear = w.clear ∧ v.isNaN = false := by
  change v.equal w = true ↔ _
  cases v <;> cases w <;> simp [equal, clear, isNaN, Double.beq_iff]

/-- Values that may be missing are equal if they are the same once cleared,
and no NaN. -/
theorem equalOption_iff {v w : Option Value} :
    equalOption v w = true ↔ v.map clear = w.map clear ∧ v.any isNaN = false := by
  cases v <;> cases w <;> simp [equalOption, beq_iff]

end Value

namespace Token

theorem hasNaN_clear (t : Token) : t.clear.hasNaN = t.hasNaN := by
  obtain ⟨kind, lexeme, literal, line⟩ := t
  cases literal <;> simp [clear, hasNaN, Value.isNaN_clear]

/-- Tokens are the same once cleared if they differ at most in the sign of a
zero that is their value. -/
theorem clear_eq_iff {s t : Token} :
    s.clear = t.clear ↔ s.kind = t.kind ∧ s.lexeme = t.lexeme ∧
      s.literal.map Value.clear = t.literal.map Value.clear ∧ s.line = t.line := by
  rw [clear, clear, mk.injEq]

/-- Tokens are equal if they are the same once cleared, and have no NaN. -/
theorem beq_iff {s t : Token} : (s == t) = true ↔ s.clear = t.clear ∧ s.hasNaN = false := by
  change s.equal t = true ↔ _
  simp only [equal, hasNaN, clear_eq_iff, Bool.and_eq_true, beq_iff_eq, Value.equalOption_iff]
  tauto

end Token

/-- An operator is its token. -/
theorem Operator.ext {arity : Arity} {o p : Operator arity} (h : o.token = p.token) : o = p := by
  obtain ⟨s, hs⟩ := o
  obtain ⟨t, ht⟩ := p
  cases h
  rfl

/-- Operators are equal if they are the same once cleared, and have no NaN. -/
theorem Operator.beq_iff {arity : Arity} {o p : Operator arity} :
    (o == p) = true ↔ o.clear = p.clear ∧ o.token.hasNaN = false := by
  change (o.token == p.token) = true ↔ _
  rw [Token.beq_iff, clear, clear, mk.injEq]

/-! ## Trees -/

namespace Expr

variable {o : BinaryOperator} {p : UnaryOperator} {left right inner operand : Expr} {v : Value}

/-- A tree has a NaN if the token at its root or a tree below it has one. -/
theorem hasNaN_binary :
    (binary o left right).hasNaN = (o.token.hasNaN || left.hasNaN || right.hasNaN) := by
  simp only [hasNaN, values, operatorTokens, List.any_append, List.any_cons]
  ac_rfl

theorem hasNaN_grouping : (grouping inner).hasNaN = inner.hasNaN := rfl

theorem hasNaN_literal : (literal v).hasNaN = v.isNaN := by
  simp [hasNaN, values, operatorTokens]

theorem hasNaN_unary : (unary p operand).hasNaN = (p.token.hasNaN || operand.hasNaN) := by
  simp only [hasNaN, values, operatorTokens, List.any_cons]
  ac_rfl

/-- **Clearing takes no NaN away.** -/
theorem hasNaN_clear (e : Expr) : e.clear.hasNaN = e.hasNaN := by
  induction e with
  | binary o left right ihleft ihright =>
    rw [hasNaN_binary, ← ihleft, ← ihright, ← Token.hasNaN_clear]
    exact hasNaN_binary
  | grouping inner ih => exact ih
  | literal v =>
    rw [hasNaN_literal, ← Value.isNaN_clear]
    exact hasNaN_literal
  | unary o operand ih =>
    rw [hasNaN_unary, ← ih, ← Token.hasNaN_clear]
    exact hasNaN_unary

/-- **Trees are equal** if they are the same once cleared, and have no NaN
in them. -/
theorem beq_iff {a b : Expr} : (a == b) = true ↔ a.clear = b.clear ∧ a.hasNaN = false := by
  change a.equal b = true ↔ _
  induction a generalizing b with
  | binary o left right ihleft ihright =>
    cases b with
    | binary o' left' right' =>
      rw [hasNaN_binary]
      simp only [equal, clear, map, Bool.and_eq_true, ihleft, ihright, Operator.beq_iff,
        binary.injEq, Bool.or_eq_false_iff]
      tauto
    | _ => simp [equal, clear, map]
  | grouping inner ih =>
    cases b with
    | grouping inner' =>
      rw [hasNaN_grouping]
      simp only [equal, clear, map, ih, grouping.injEq]
    | _ => simp [equal, clear, map]
  | literal v =>
    cases b with
    | literal w =>
      rw [hasNaN_literal]
      simp only [equal, clear, map, Value.beq_iff, literal.injEq]
    | _ => simp [equal, clear, map]
  | unary o operand ih =>
    cases b with
    | unary o' operand' =>
      rw [hasNaN_unary]
      simp only [equal, clear, map, Bool.and_eq_true, ih, Operator.beq_iff, unary.injEq,
        Bool.or_eq_false_iff]
      tauto
    | _ => simp [equal, clear, map]

/-! ## What is left of a cleared tree -/

/-- With other operators and values a tree keeps its shape. -/
theorem sameShape_map (onBinary : BinaryOperator → BinaryOperator)
    (onUnary : UnaryOperator → UnaryOperator) (onValue : Value → Value) (e : Expr) :
    e.SameShape (e.map onBinary onUnary onValue) := by
  induction e with
  | binary o left right ihleft ihright => exact .binary ihleft ihright
  | grouping inner ih => exact .grouping ih
  | literal v => exact .literal
  | unary o operand ih => exact .unary ih

theorem operatorTokens_clear (e : Expr) :
    e.clear.operatorTokens = e.operatorTokens.map Token.clear := by
  induction e with
  | binary o left right ihleft ihright =>
    rw [operatorTokens, List.map_cons, List.map_append, ← ihleft, ← ihright]
    rfl
  | grouping inner ih => exact ih
  | literal v => rfl
  | unary o operand ih =>
    rw [operatorTokens, List.map_cons, ← ih]
    rfl

/-- The literals of a cleared tree are those of the tree, cleared. -/
theorem values_clear (e : Expr) : e.clear.values = e.values.map Value.clear := by
  induction e with
  | binary o left right ihleft ihright =>
    rw [values, List.map_append, ← ihleft, ← ihright]
    rfl
  | grouping inner ih => exact ih
  | literal v => rfl
  | unary o operand ih => exact ih

namespace SameShape

variable {a b : Expr}

/-- Trees of one shape have as many operators. -/
theorem length_operatorTokens (h : a.SameShape b) :
    a.operatorTokens.length = b.operatorTokens.length := by
  induction h with
  | binary _ _ ihleft ihright => simp [operatorTokens, ihleft, ihright]
  | grouping _ ih => exact ih
  | literal => rfl
  | unary _ ih => simp [operatorTokens, ih]

theorem length_values (h : a.SameShape b) : a.values.length = b.values.length := by
  induction h with
  | binary _ _ ihleft ihright => simp [values, ihleft, ihright]
  | grouping _ ih => exact ih
  | literal => rfl
  | unary _ ih => exact ih

/-- **A tree is made of its shape, its operators and its values.** -/
theorem eq_of_content (h : a.SameShape b) (htokens : a.operatorTokens = b.operatorTokens)
    (hvalues : a.values = b.values) : a = b := by
  induction h with
  | binary hleft hright ihleft ihright =>
    obtain ⟨htoken, htokens⟩ := List.cons.inj htokens
    obtain ⟨htokensLeft, htokensRight⟩ := List.append_inj htokens hleft.length_operatorTokens
    obtain ⟨hvaluesLeft, hvaluesRight⟩ := List.append_inj hvalues hleft.length_values
    rw [Operator.ext htoken, ihleft htokensLeft hvaluesLeft, ihright htokensRight hvaluesRight]
  | grouping _ ih => rw [ih htokens hvalues]
  | literal => rw [(List.cons.inj hvalues).1]
  | unary _ ih =>
    obtain ⟨htoken, htokens⟩ := List.cons.inj htokens
    rw [Operator.ext htoken, ih htokens hvalues]

end SameShape

/-- **Trees are the same once cleared** if they have one shape, and their
operators' tokens and their literals are the same once cleared. -/
theorem clear_eq_iff {a b : Expr} :
    a.clear = b.clear ↔ a.SameShape b ∧
      a.operatorTokens.map Token.clear = b.operatorTokens.map Token.clear ∧
      a.values.map Value.clear = b.values.map Value.clear := by
  have hshape : ∀ e : Expr, e.tally.record = e.clear.tally.record := fun e =>
    (sameShape_map Operator.clear Operator.clear Value.clear e).record_eq
  -- by way of the records, so that the shapes of the cleared trees stand for those of the trees
  rw [sameShape_iff, hshape a, hshape b, ← sameShape_iff, ← operatorTokens_clear,
    ← operatorTokens_clear, ← values_clear, ← values_clear]
  constructor
  · intro h
    rw [h]
    exact ⟨sameShape_iff.2 rfl, rfl, rfl⟩
  · rintro ⟨h, htokens, hvalues⟩
    exact h.eq_of_content htokens hvalues

/-- **Equality of trees, of tokens and of values** is symmetric and
transitive. What has no NaN in it is equal to itself, and to what is the
same once cleared and nothing else; what has one is not equal to itself.
Values are the same once cleared if they are the same or both are zeros;
tokens, if kind, lexeme and line are the same, and their literals are the
same once cleared; trees, if they have one shape, and their operators'
tokens and their literals are the same once cleared. -/
theorem beq_comparesByValue :
    ComparesByValue Expr.hasNaN Expr.clear ∧ ComparesByValue Token.hasNaN Token.clear ∧
      ComparesByValue Value.isNaN Value.clear ∧
      (∀ v w : Value, v.clear = w.clear ↔ v = w ∨ v.isZero = true ∧ w.isZero = true) ∧
      (∀ s t : Token, s.clear = t.clear ↔ s.kind = t.kind ∧ s.lexeme = t.lexeme ∧
        s.literal.map Value.clear = t.literal.map Value.clear ∧ s.line = t.line) ∧
      ∀ a b : Expr, a.clear = b.clear ↔ a.SameShape b ∧
        a.operatorTokens.map Token.clear = b.operatorTokens.map Token.clear ∧
        a.values.map Value.clear = b.values.map Value.clear :=
  ⟨.of_beq_iff (fun _ _ => beq_iff) hasNaN_clear,
    .of_beq_iff (fun _ _ => Token.beq_iff) Token.hasNaN_clear,
    .of_beq_iff (fun _ _ => Value.beq_iff) Value.isNaN_clear, fun _ _ => Value.clear_eq_iff,
    fun _ _ => Token.clear_eq_iff, fun _ _ => clear_eq_iff⟩

end Expr

end LoxFront
