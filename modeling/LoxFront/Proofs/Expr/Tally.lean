import Mathlib.Data.List.Count
import LoxFront.Expr.Shape
import LoxFront.Proofs.Expr.Canonical
/-!
# The record of a tree

The tally is what a visitor comes to that notes nodes as it goes
(`run_noting`), and what it notes are the nodes at all addresses, in the
order of the addresses (`map_record`). Where the record of a tree ends can
be told from what stands in it, so of two records that begin alike none
goes on past the other, and the trees have one shape (`record_append_inj`).

A printed tree has a parenthesis for every node but the literals, and a
blank before every node but the first, if the names of its nodes and its
values have neither (`count_print`).
-/

namespace LoxFront

/-- The letter of a kind tells the kind. -/
theorem NodeKind.letter_injective : Function.Injective NodeKind.letter := by
  intro a b h
  cases a <;> cases b <;> first | rfl | exact absurd h (by decide)

/-- The letters of a tally are those of its record, in order. -/
theorem Tally.toList_letters (t : Tally) : t.letters.toList = t.record.map NodeKind.letter :=
  String.toList_ofList

namespace Expr

variable {o : BinaryOperator} {p : UnaryOperator} {left right inner operand : Expr} {v : Value}
  {noted : List NodeKind}

/-- A node is noted in front of what stands below it, and that from left to
right. -/
theorem record_binary :
    (binary o left right).tally.record = .binary :: (left.tally.record ++ right.tally.record) :=
  rfl

theorem record_grouping : (grouping inner).tally.record = .grouping :: inner.tally.record := rfl

theorem record_unary : (unary p operand).tally.record = .unary :: operand.tally.record := rfl

/-- A node counts one more than what stands below it. -/
theorem count_binary :
    (binary o left right).tally.count = 1 + left.tally.count + right.tally.count := rfl

theorem count_grouping : (grouping inner).tally.count = 1 + inner.tally.count := rfl

theorem count_unary : (unary p operand).tally.count = 1 + operand.tally.count := rfl

/-- **All that is noted is counted.** -/
theorem length_record (e : Expr) : e.tally.record.length = e.tally.count := by
  induction e with
  | binary o left right ihleft ihright =>
    rw [record_binary, count_binary, List.length_cons, List.length_append]
    omega
  | grouping inner ih =>
    rw [record_grouping, count_grouping, List.length_cons]
    omega
  | literal v => rfl
  | unary o operand ih =>
    rw [record_unary, count_unary, List.length_cons]
    omega

/-! ## Noting as one goes -/

/-- A visit of a node notes it first, and hands on what is noted from the left
to the right. -/
theorem run_noting_binary :
    ((binary o left right).visit Visitor.noting).run noted =
      let first := (left.visit Visitor.noting).run (noted ++ [.binary])
      let second := (right.visit Visitor.noting).run first.2
      (1 + first.1 + second.1, second.2) := rfl

theorem run_noting_grouping :
    ((grouping inner).visit Visitor.noting).run noted =
      let below := (inner.visit Visitor.noting).run (noted ++ [.grouping])
      (1 + below.1, below.2) := rfl

theorem run_noting_unary :
    ((unary p operand).visit Visitor.noting).run noted =
      let below := (operand.visit Visitor.noting).run (noted ++ [.unary])
      (1 + below.1, below.2) := rfl

/-- **The tally is what noting comes to**, behind whatever was noted
before. -/
theorem run_noting (e : Expr) (noted : List NodeKind) :
    (e.visit Visitor.noting).run noted = (e.tally.count, noted ++ e.tally.record) := by
  induction e generalizing noted with
  | binary o left right ihleft ihright =>
    simp only [run_noting_binary, ihleft, ihright, List.append_assoc]
    rfl
  | grouping inner ih =>
    simp only [run_noting_grouping, ih, List.append_assoc]
    rfl
  | literal v => rfl
  | unary o operand ih =>
    simp only [run_noting_unary, ih, List.append_assoc]
    rfl

/-! ## Addresses -/

/-- The addresses of a tree, a node's before those of its children. -/
def addresses : Expr → List (List Nat)
  | binary _ left right => [] :: (left.addresses.map (0 :: ·) ++ right.addresses.map (1 :: ·))
  | grouping inner => [] :: inner.addresses.map (0 :: ·)
  | literal _ => [[]]
  | unary _ operand => [] :: operand.addresses.map (0 :: ·)

/-- Addresses below one place are ordered as they are below it. -/
theorem pairwise_map_cons {below : List (List Nat)} (i : Nat) (h : below.Pairwise (· < ·)) :
    (below.map (i :: ·)).Pairwise (· < ·) := by
  rw [List.pairwise_map]
  exact h.imp fun hlt => List.cons_lt_cons_iff.2 (.inr ⟨rfl, hlt⟩)

/-- A node stands before all that is below it. -/
theorem nil_lt_of_mem_map_cons {below : List (List Nat)} {i : Nat} {a : List Nat}
    (h : a ∈ below.map (i :: ·)) : [] < a := by
  obtain ⟨b, -, rfl⟩ := List.mem_map.1 h
  exact List.nil_lt_cons _ _

/-- What is below an earlier place stands before what is below a later one. -/
theorem lt_of_mem_map_cons {first second : List (List Nat)} {i j : Nat} {a b : List Nat}
    (h : i < j) (ha : a ∈ first.map (i :: ·)) (hb : b ∈ second.map (j :: ·)) : a < b := by
  obtain ⟨a', -, rfl⟩ := List.mem_map.1 ha
  obtain ⟨b', -, rfl⟩ := List.mem_map.1 hb
  exact List.cons_lt_cons_iff.2 (.inl h)

/-- The addresses are in order, and none is there twice. -/
theorem pairwise_addresses (e : Expr) : e.addresses.Pairwise (· < ·) := by
  induction e with
  | binary o left right ihleft ihright =>
    rw [addresses, List.pairwise_cons, List.pairwise_append]
    refine ⟨fun a ha => ?_, pairwise_map_cons 0 ihleft, pairwise_map_cons 1 ihright,
      fun a ha b hb => lt_of_mem_map_cons Nat.zero_lt_one ha hb⟩
    exact (List.mem_append.1 ha).elim nil_lt_of_mem_map_cons nil_lt_of_mem_map_cons
  | grouping inner ih =>
    exact List.pairwise_cons.2 ⟨fun _ => nil_lt_of_mem_map_cons, pairwise_map_cons 0 ih⟩
  | literal v => exact List.pairwise_singleton _ _
  | unary o operand ih =>
    exact List.pairwise_cons.2 ⟨fun _ => nil_lt_of_mem_map_cons, pairwise_map_cons 0 ih⟩

/-- **They are those where the tree has a node.** -/
theorem mem_addresses_iff {e : Expr} {address : List Nat} :
    address ∈ e.addresses ↔ (e.at? address).isSome := by
  induction e generalizing address with
  | binary o left right ihleft ihright =>
    rcases address with _ | ⟨_ | _ | i, address⟩
    · simp [addresses, at?]
    · simp [addresses, at?, children, ihleft]
    · simp [addresses, at?, children, ihright]
    · simp [addresses, at?, children]
  | grouping inner ih =>
    rcases address with _ | ⟨_ | i, address⟩
    · simp [addresses, at?]
    · simp [addresses, at?, children, ih]
    · simp [addresses, at?, children]
  | literal v => cases address <;> simp [addresses, at?, children]
  | unary o operand ih =>
    rcases address with _ | ⟨_ | i, address⟩
    · simp [addresses, at?]
    · simp [addresses, at?, children, ih]
    · simp [addresses, at?, children]

/-- **The node at each address is noted**, in the order of the
addresses. -/
theorem map_record (e : Expr) :
    e.tally.record.map some = e.addresses.map fun address => (e.at? address).map kind := by
  induction e with
  | binary o left right ihleft ihright =>
    rw [record_binary, addresses, List.map_cons, List.map_append, ihleft, ihright, List.map_cons,
      List.map_append, List.map_map, List.map_map]
    rfl
  | grouping inner ih =>
    rw [record_grouping, addresses, List.map_cons, ih, List.map_cons, List.map_map]
    rfl
  | literal v => rfl
  | unary o operand ih =>
    rw [record_unary, addresses, List.map_cons, ih, List.map_cons, List.map_map]
    rfl

/-! ## What a record tells -/

/-- Each node with two operands has one leaf more below it. -/
theorem count_binary_add_one (e : Expr) :
    e.tally.record.count .binary + 1 = e.tally.record.count .literal := by
  induction e with
  | binary o left right ihleft ihright =>
    rw [record_binary, List.count_cons_self, List.count_cons_of_ne (by decide), List.count_append,
      List.count_append]
    omega
  | grouping inner ih =>
    rw [record_grouping, List.count_cons_of_ne (by decide), List.count_cons_of_ne (by decide), ih]
  | literal v => rfl
  | unary o operand ih =>
    rw [record_unary, List.count_cons_of_ne (by decide), List.count_cons_of_ne (by decide), ih]

/-- A record starts with the kind of the root. -/
theorem exists_record_cons (e : Expr) : ∃ below, e.tally.record = e.kind :: below := by
  cases e <;> exact ⟨_, rfl⟩

/-- Records tell the kind of the root, whatever is written behind them. -/
theorem kind_eq_of_append {e e' : Expr} {rest rest' : List NodeKind}
    (h : e.tally.record ++ rest = e'.tally.record ++ rest') : e.kind = e'.kind := by
  obtain ⟨below, hrecord⟩ := exists_record_cons e
  obtain ⟨below', hrecord'⟩ := exists_record_cons e'
  rw [hrecord, hrecord', List.cons_append, List.cons_append] at h
  exact (List.cons.inj h).1

/-- **A record tells the shape, and where it ends**, whatever stands behind
it. -/
theorem record_append_inj {e e' : Expr} {rest rest' : List NodeKind}
    (h : e.tally.record ++ rest = e'.tally.record ++ rest') : e.SameShape e' ∧ rest = rest' := by
  induction e generalizing e' rest rest' with
  | binary o left right ihleft ihright =>
    have hkind := kind_eq_of_append h
    cases e' with
    | binary o' left' right' =>
      rw [record_binary, record_binary, List.cons_append, List.cons_append, List.append_assoc,
        List.append_assoc] at h
      obtain ⟨hleft, hbehind⟩ := ihleft (List.cons.inj h).2
      obtain ⟨hright, hrest⟩ := ihright hbehind
      exact ⟨.binary hleft hright, hrest⟩
    | _ => cases hkind
  | grouping inner ih =>
    have hkind := kind_eq_of_append h
    cases e' with
    | grouping inner' =>
      obtain ⟨hinner, hrest⟩ := ih (List.cons.inj h).2
      exact ⟨.grouping hinner, hrest⟩
    | _ => cases hkind
  | literal v =>
    have hkind := kind_eq_of_append h
    cases e' with
    | literal w => exact ⟨.literal, (List.cons.inj h).2⟩
    | _ => cases hkind
  | unary o operand ih =>
    have hkind := kind_eq_of_append h
    cases e' with
    | unary o' operand' =>
      obtain ⟨hoperand, hrest⟩ := ih (List.cons.inj h).2
      exact ⟨.unary hoperand, hrest⟩
    | _ => cases hkind

/-- Trees of one shape have one record. -/
theorem SameShape.record_eq {e e' : Expr} (h : e.SameShape e') :
    e.tally.record = e'.tally.record := by
  induction h with
  | binary _ _ ihleft ihright => rw [record_binary, record_binary, ihleft, ihright]
  | grouping _ ih => rw [record_grouping, record_grouping, ih]
  | literal => rfl
  | unary _ ih => rw [record_unary, record_unary, ih]

/-- **Trees have one record exactly if they have one shape.** -/
theorem sameShape_iff {e e' : Expr} : e.SameShape e' ↔ e.tally.record = e'.tally.record := by
  refine ⟨SameShape.record_eq, fun h => ?_⟩
  have hnothing : e.tally.record ++ [] = e'.tally.record ++ [] := by rw [h]
  exact (record_append_inj hnothing).1

/-- **No record goes on past another.** -/
theorem record_eq_of_isPrefix {e e' : Expr} (h : e'.tally.record <+: e.tally.record) :
    e'.tally.record = e.tally.record := by
  obtain ⟨rest, hrest⟩ := h
  have hnothing : e'.tally.record ++ rest = e.tally.record ++ [] := by
    rw [hrest, List.append_nil]
  rw [← hrest, (record_append_inj hnothing).2, List.append_nil]

/-! ## The printed form -/

/-- How many nodes of a record have a name, and so are printed in
parentheses. -/
def named (record : List NodeKind) : Nat :=
  record.count .binary + record.count .grouping + record.count .unary

theorem named_append (a b : List NodeKind) : named (a ++ b) = named a + named b := by
  simp only [named, List.count_append]
  omega

theorem named_cons {kind : NodeKind} (h : kind ≠ .literal) (rest : List NodeKind) :
    named (kind :: rest) = named rest + 1 := by
  cases kind with
  | literal => exact (h rfl).elim
  | _ => simp [named]; omega

/-- A node in parentheses has one at its front and a blank behind its name,
besides those of its parts. -/
theorem count_nodeChars {name : List Char} (hblank : ' ' ∉ name) (hparenthesis : '(' ∉ name)
    (parts : List Char) :
    (nodeChars name parts).count '(' = parts.count '(' + 1 ∧
      (nodeChars name parts).count ' ' = parts.count ' ' + 1 := by
  simp [nodeChars, List.count_eq_zero.2 hblank, List.count_eq_zero.2 hparenthesis]

theorem Arity.parenthesis_not_mem_spelling {arity : Arity} {kind : TokenKind} {s : String}
    (h : arity.admits kind = true) (hs : kind.spelling? = some s) : '(' ∉ s.toList := by
  cases arity <;> cases kind <;> cases hs <;> first | decide | cases h

/-- A node in parentheses adds one opening parenthesis and one blank to those
of its parts, for its name has neither. -/
theorem count_operatorChars {arity : Arity} {o : Operator arity} (h : o.token.IsRead)
    (parts : List Char) :
    (nodeChars o.token.lexeme.toList parts).count '(' = parts.count '(' + 1 ∧
      (nodeChars o.token.lexeme.toList parts).count ' ' = parts.count ' ' + 1 := by
  have hparenthesis : '(' ∉ o.token.lexeme.toList := by
    obtain ⟨s, hs⟩ := Arity.exists_spelling o.admitted
    rw [h.lexeme_eq hs]
    exact Arity.parenthesis_not_mem_spelling o.admitted hs
  exact count_nodeChars (Operator.name_of_isRead h).1 hparenthesis parts

/-- **What a printed tree shows of its record**: a parenthesis for every
node with a name, and a blank before every node but the first. -/
theorem count_print {e : Expr} (h : e.Legible) :
    e.print.toList.count '(' = named e.tally.record ∧
      e.print.toList.count ' ' + 1 = e.tally.count := by
  induction e with
  | binary o left right ihleft ihright =>
    obtain ⟨ho, hleft, hright⟩ := h.binary
    obtain ⟨hparentheses, hblanks⟩ :=
      count_operatorChars ho (left.print.toList ++ ' ' :: right.print.toList)
    have hleft := ihleft hleft
    have hright := ihright hright
    rw [toList_print_binary, hparentheses, hblanks, record_binary, count_binary,
      named_cons (by decide), named_append, List.count_append, List.count_append,
      List.count_cons_self, List.count_cons_of_ne (by decide)]
    omega
  | grouping inner ih =>
    have hblank : ' ' ∉ "group".toList := by decide
    obtain ⟨hparentheses, hblanks⟩ := count_nodeChars hblank (by decide) inner.print.toList
    have hinner := ih h.grouping
    rw [toList_print_grouping, hparentheses, hblanks, record_grouping, count_grouping,
      named_cons (by decide)]
    omega
  | literal v =>
    rw [print_literal, List.count_eq_zero.2 (Value.not_mem_display h.literal (by decide)),
      List.count_eq_zero.2 (Value.not_mem_display h.literal (by decide))]
    exact ⟨rfl, rfl⟩
  | unary o operand ih =>
    obtain ⟨ho, hoperand⟩ := h.unary
    obtain ⟨hparentheses, hblanks⟩ := count_operatorChars ho operand.print.toList
    have hoperand := ih hoperand
    rw [toList_print_unary, hparentheses, hblanks, record_unary, count_unary,
      named_cons (by decide)]
    omega

/-! ## Letters -/

/-- A kind is counted among the letters as often as in the record. -/
theorem count_letters (t : Tally) (kind : NodeKind) :
    t.letters.toList.count kind.letter = t.record.count kind := by
  rw [Tally.toList_letters, List.count_map_of_injective _ _ NodeKind.letter_injective]

/-- **The tally of a tree.** A visitor that notes nodes as it goes comes to
it. Its letters stand for the nodes at all addresses of the tree, each once
and in the order of the addresses, and there are as many as it counts. The
leaves are one more than the nodes with two operands. No record begins
another, and trees have one record exactly if they have one shape. If a
tree holds no text and its operators come from scans, of whatever sources,
its printed form has a parenthesis for each of its other nodes, and blanks
one less than it has nodes. -/
theorem tally_preorder (e : Expr) :
    let letters := e.tally.letters.toList
    (∀ noted, (e.visit Visitor.noting).run noted =
        (e.tally.count, noted ++ e.tally.record)) ∧
      (∃ addresses : List (List Nat), addresses.Pairwise (· < ·) ∧
        (∀ address, address ∈ addresses ↔ (e.at? address).isSome) ∧
        letters.map some =
          addresses.map fun address => (e.at? address).map fun node => node.kind.letter) ∧
      letters.length = e.tally.count ∧
      letters.count 'b' + 1 = letters.count 'l' ∧
      (∀ e' : Expr, e'.tally.letters.toList <+: letters → e'.tally.letters.toList = letters) ∧
      (∀ e' : Expr, e.tally.letters = e'.tally.letters ↔ e.SameShape e') ∧
      ((∀ v ∈ e.values, ∀ s, v ≠ .text s) →
        (∀ t ∈ e.operatorTokens, ∃ source, t ∈ (scan source).tokens) →
        e.print.toList.count '(' = letters.count 'b' + letters.count 'g' + letters.count 'u' ∧
          e.print.toList.count ' ' + 1 = e.tally.count) := by
  have hletters := Tally.toList_letters
  have hcount := count_letters e.tally
  refine ⟨run_noting e, ⟨e.addresses, pairwise_addresses e, fun _ => mem_addresses_iff, ?noted⟩,
    ?length, ?leaves, fun e' h => ?ends, fun e' => ?shape, fun hvalues hoperators => ?printed⟩
  case noted =>
    have hmap := congrArg (List.map (Option.map NodeKind.letter)) (map_record e)
    rw [List.map_map, List.map_map] at hmap
    rw [hletters, List.map_map]
    simpa only [Function.comp_def, Option.map_some, Option.map_map] using hmap
  case length =>
    rw [hletters, List.length_map, length_record]
  case leaves =>
    have hleaves := count_binary_add_one e
    rw [← hcount, ← hcount] at hleaves
    exact hleaves
  case ends =>
    rw [hletters, hletters, List.prefix_map_iff_of_injective NodeKind.letter_injective] at h
    rw [hletters, hletters, record_eq_of_isPrefix h]
  case shape =>
    rw [← String.toList_inj, hletters, hletters,
      List.map_inj_right fun _ _ h => NodeKind.letter_injective h, sameShape_iff]
  case printed =>
    have hprint := count_print (legible_of_scanned hvalues hoperators)
    rw [named, ← hcount, ← hcount, ← hcount] at hprint
    exact hprint

end Expr

end LoxFront
