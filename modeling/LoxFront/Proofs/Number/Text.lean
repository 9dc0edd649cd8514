import LoxFront.Number.Shortest
/-!
# The characters of a number

A finite number is written with digits, a point and a sign, and the others
as words. So a number's text stays on its line, and a text that puts
numbers between blanks or in parentheses can tell where they end.
-/

namespace LoxFront

/-- A decimal is written with digits and points. -/
theorem Decimal.isDigit_or_point_of_mem_chars {d : Decimal} {c : Char} (h : c ∈ d.chars) :
    c.isDigit = true ∨ c = '.' := by
  have hdigits : ∀ {n : Nat}, c ∈ Nat.toDigits 10 n → c.isDigit = true :=
    Nat.isDigit_of_mem_toDigits (by decide) (by decide)
  unfold chars at h
  split at h
  · exact .inl (hdigits h)
  · rw [List.mem_append, List.mem_cons, fraction, List.mem_append, List.mem_replicate] at h
    obtain hwhole | rfl | ⟨-, rfl⟩ | hfraction := h
    · exact .inl (hdigits hwhole)
    · exact .inr rfl
    · exact .inl rfl
    · exact .inl (hdigits hfraction)

namespace Double

/-- The characters of a number without its sign. -/
def unsignedChars (x : Double) : List Char :=
  if x.isFinite then (shortest x.magnitude).chars else "inf".toList

theorem isNaN_of_isFinite {x : Double} (h : x.isFinite = true) : x.isNaN = false :=
  decide_eq_false (Nat.not_lt.2 (Nat.le_of_lt (of_decide_eq_true h)))

theorem text_of_isNaN {x : Double} (h : x.isNaN = true) : x.text = "NaN" := if_pos h

/-- A number that is no NaN is written behind its sign. -/
theorem toList_text {x : Double} (h : x.isNaN = false) :
    x.text.toList = if x.negative then '-' :: x.unsignedChars else x.unsignedChars := by
  rw [text, h, unsignedChars]
  cases x.isFinite <;> cases x.negative <;> simp

/-- **A number is written with no characters but these.** -/
theorem not_mem_text {c : Char} (hdigit : c.isDigit = false) (hother : c ∉ ".-infNa".toList)
    (x : Double) : c ∉ x.text.toList := by
  have hne : c ≠ '.' ∧ c ≠ '-' ∧ c ≠ 'i' ∧ c ≠ 'n' ∧ c ≠ 'f' ∧ c ≠ 'N' ∧ c ≠ 'a' := by
    simpa using hother
  have hchars : c ∉ (shortest x.magnitude).chars := fun hmem =>
    (Decimal.isDigit_or_point_of_mem_chars hmem).elim (by simp [hdigit]) hne.1
  have hunsigned : c ∉ x.unsignedChars := by
    unfold unsignedChars
    split
    · exact hchars
    · simp [hne]
  cases hnan : x.isNaN with
  | true => simp [text_of_isNaN hnan, hne]
  | false =>
    rw [toList_text hnan]
    split
    · exact List.not_mem_cons_of_ne_of_not_mem hne.2.1 hunsigned
    · exact hunsigned

/-- A number is written on one line. -/
theorem newline_not_mem_text (x : Double) : '\n' ∉ x.text.toList :=
  not_mem_text (by decide) (by decide) x

end Double

end LoxFront
