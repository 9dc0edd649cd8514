/-!
# Decimals

A decimal is a natural number over a power of ten: what a numeral writes
down, digit for digit, and what a number is written as. Reading a numeral
forgets nothing but leading zeros (`Decimal.ofNumeral`); writing one out
(`Decimal.chars`) gives every place of the fraction and no superfluous
leading zero. Which decimal stands for a double is the business of
`LoxFront.Number.Nearest` and `LoxFront.Number.Shortest`.
-/

namespace LoxFront

/-- The number `digits / 10 ^ places`. One number has many decimals; the
one with the fewest places is found by `Decimal.trimmed`. -/
structure Decimal where
  /-- All digits, those of the fraction included, as one number. -/
  digits : Nat
  /-- How many of the digits stand behind the point. -/
  places : Nat
  deriving DecidableEq

namespace Decimal

/-- The decimal a numeral writes. A numeral is a run of digits, followed
by a point and a run of digits or by nothing: its digits are read in base
ten, and its places are what stands behind the point. -/
def ofNumeral (numeral : List Char) : Decimal where
  digits := Nat.ofDigitChars 10 (numeral.filter Char.isDigit) 0
  places := (numeral.dropWhile (· != '.')).length - 1

/-- The decimal `digits / 10 ^ places` without the zeros its fraction
ends in. -/
def trimmed (digits : Nat) : Nat → Decimal
  | 0 => ⟨digits, 0⟩
  | places + 1 =>
    if digits % 10 = 0 then trimmed (digits / 10) places else ⟨digits, places + 1⟩

/-- The fraction of a number below `10 ^ places`: its digits behind as
many zeros as fill the places. -/
def fraction (places n : Nat) : List Char :=
  List.replicate (places - (Nat.toDigits 10 n).length) '0' ++ Nat.toDigits 10 n

/-- A decimal written out: the whole part, and behind a point exactly its
places. A decimal without places is written without the point. -/
def chars (d : Decimal) : List Char :=
  match d.places with
  | 0 => Nat.toDigits 10 d.digits
  | places => Nat.toDigits 10 (d.digits / Nat.pow 10 places) ++
      '.' :: fraction places (d.digits % Nat.pow 10 places)

/-! ## Trimming keeps the number -/

/-- Trimming drops places and adds none. -/
theorem places_trimmed_le (digits places : Nat) : (trimmed digits places).places ≤ places := by
  induction places generalizing digits with
  | zero => simp [trimmed]
  | succ p ih =>
    rw [trimmed]
    split
    · exact Nat.le_succ_of_le (ih _)
    · exact Nat.le_refl _

/-- **Trimming keeps the number**: the digits that are left, moved back to
the places there were, are the digits there were. -/
theorem digits_trimmed (digits places : Nat) :
    (trimmed digits places).digits * Nat.pow 10 (places - (trimmed digits places).places) =
      digits := by
  induction places generalizing digits with
  | zero => exact Nat.mul_one digits
  | succ p ih =>
    rw [trimmed]
    split
    · next h =>
      rw [Nat.succ_sub (places_trimmed_le (digits / 10) p)]
      have tenfold := congrArg (· * 10) (ih (digits / 10))
      have whole := Nat.div_mul_cancel (Nat.dvd_of_mod_eq_zero h)
      exact (Nat.mul_assoc ..).symm.trans (tenfold.trans whole)
    · rw [Nat.sub_self]
      exact Nat.mul_one digits

/-- A trimmed fraction ends in no zero. -/
theorem trimmed_mod_ten (digits places : Nat) (h : (trimmed digits places).places ≠ 0) :
    (trimmed digits places).digits % 10 ≠ 0 := by
  induction places generalizing digits with
  | zero => simp [trimmed] at h
  | succ p ih =>
    rw [trimmed] at h ⊢
    split
    · next hz => rw [if_pos hz] at h; exact ih _ h
    · next hz => exact hz

end Decimal

end LoxFront
