import LoxFront.Number.DecimalText
import LoxFront.Proofs.Number.Value
/-!
# Digits of decimal texts

A numeral has at most so many significant digits when the number all its
digits make is one of so many digits with zeros behind
(`significantDigits_le_iff`): zeros in front do not count in a number, and
those behind are a power of ten. So digits are counted on numbers
(`HasDigits`), where the point does not matter, nor do zeros put behind
(`hasDigits_mul_pow_iff`). And a decimal whose last place holds no zero is
written without a superfluous one (`ofDecimal_tidy`).
-/

namespace LoxFront

/-- **A number has at most so many significant digits.** -/
def HasDigits (n s : ℕ) : Prop := ∃ m e, m < 10 ^ s ∧ n = m * 10 ^ e

theorem ten_pow_pos (n : ℕ) : 0 < 10 ^ n := Nat.pow_pos (by decide)

namespace HasDigits

theorem zero (s : ℕ) : HasDigits 0 s := ⟨0, 0, ten_pow_pos s, rfl⟩

/-- The bound on the digits may be raised. -/
theorem mono {n s t : ℕ} (h : HasDigits n s) (hle : s ≤ t) : HasDigits n t := by
  obtain ⟨m, e, hm, hn⟩ := h
  exact ⟨m, e, hm.trans_le (Nat.pow_le_pow_right (by decide) hle), hn⟩

theorem of_lt {n s : ℕ} (h : n < 10 ^ s) : HasDigits n s := ⟨n, 0, h, (Nat.mul_one n).symm⟩

/-- The power itself is a one with zeros. -/
theorem of_le {n s : ℕ} (hs : 0 < s) (h : n ≤ 10 ^ s) : HasDigits n s := by
  rcases Nat.lt_or_eq_of_le h with hlt | rfl
  · exact .of_lt hlt
  · exact ⟨1, s, Nat.one_lt_pow hs.ne' (by decide), (Nat.one_mul _).symm⟩

/-- A number that ends in no zero has no digits but its significant ones. -/
theorem lt_pow {n s : ℕ} (h : HasDigits n s) (hlast : n % 10 ≠ 0) : n < 10 ^ s := by
  obtain ⟨m, e, hm, rfl⟩ := h
  cases e with
  | zero => rwa [pow_zero, Nat.mul_one]
  | succ e =>
    rw [pow_succ, ← Nat.mul_assoc, Nat.mul_mod_left] at hlast
    exact (hlast rfl).elim

end HasDigits

/-- Zeros behind a number do not count. -/
theorem hasDigits_mul_pow_iff {n j s : ℕ} : HasDigits (n * 10 ^ j) s ↔ HasDigits n s := by
  constructor
  · rintro ⟨m, e, hm, hmul⟩
    rcases Nat.le_total j e with hle | hle
    · obtain ⟨i, rfl⟩ := Nat.exists_eq_add_of_le hle
      rw [pow_add, Nat.mul_comm (10 ^ j), ← Nat.mul_assoc] at hmul
      exact ⟨m, i, hm, Nat.eq_of_mul_eq_mul_right (ten_pow_pos j) hmul⟩
    · -- the number itself is below the power
      obtain ⟨i, rfl⟩ := Nat.exists_eq_add_of_le hle
      rw [pow_add, Nat.mul_comm (10 ^ e), ← Nat.mul_assoc] at hmul
      have hn : n * 10 ^ i = m := Nat.eq_of_mul_eq_mul_right (ten_pow_pos e) hmul
      exact .of_lt ((Nat.le_mul_of_pos_right n (ten_pow_pos i)).trans_lt (hn ▸ hm))
  · rintro ⟨m, e, hm, rfl⟩
    exact ⟨m, e + j, hm, by rw [pow_add, Nat.mul_assoc]⟩

/-! ## The number a run of digits makes -/

theorem digitValue_le {c : Char} (h : c.isDigit = true) : digitValue c ≤ 9 := by
  have hbounds : c.toNat ≤ 57 := (Char.isDigit_iff_toNat.1 h).2
  exact Nat.sub_le_of_le_add hbounds

/-- Only the digit zero counts for nothing. -/
theorem digitValue_eq_zero_iff {c : Char} (h : c.isDigit = true) : digitValue c = 0 ↔ c = '0' := by
  have hbounds : 48 ≤ c.toNat := (Char.isDigit_iff_toNat.1 h).1
  constructor
  · intro hzero
    have heq : c.toNat = '0'.toNat := le_antisymm (Nat.le_of_sub_eq_zero hzero) hbounds
    exact Char.toNat_inj.1 heq
  · rintro rfl
    rfl

/-- A run of so many digits is less than that power of ten. -/
theorem ofDigitChars_lt {digits : List Char} (h : ∀ c ∈ digits, c.isDigit = true) :
    Nat.ofDigitChars 10 digits 0 < 10 ^ digits.length := by
  induction digits with
  | nil => exact Nat.one_pos
  | cons c rest ih =>
    rw [List.forall_mem_cons] at h
    have hhead := Nat.mul_le_mul_right (10 ^ rest.length) (digitValue_le h.1)
    have hrest := ih h.2
    rw [ofDigitChars_cons_zero, List.length_cons, pow_succ]
    omega

/-- Zeros in front change nothing. -/
theorem ofDigitChars_dropWhile_zero (digits : List Char) :
    Nat.ofDigitChars 10 (digits.dropWhile (· == '0')) 0 = Nat.ofDigitChars 10 digits 0 := by
  induction digits with
  | nil => rfl
  | cons c rest ih =>
    rw [List.dropWhile_cons]
    split
    · next hzero =>
      have hvalue : digitValue c = 0 := by rw [beq_iff_eq.1 hzero]; rfl
      rw [ih, ofDigitChars_cons_zero, hvalue, Nat.zero_mul, Nat.zero_add]
    · rfl

/-- A digit behind others. -/
theorem ofDigitChars_concat (digits : List Char) (c : Char) :
    Nat.ofDigitChars 10 (digits ++ [c]) 0 = 10 * Nat.ofDigitChars 10 digits 0 + digitValue c :=
  Nat.ofDigitChars_append 0

/-- Zeros behind are a power of ten. -/
theorem exists_ofDigitChars_rdropWhile_zero (digits : List Char) :
    ∃ j, Nat.ofDigitChars 10 digits 0 =
      Nat.ofDigitChars 10 (digits.rdropWhile (· == '0')) 0 * 10 ^ j := by
  induction digits using List.reverseRecOn with
  | nil => exact ⟨0, rfl⟩
  | append_singleton front c ih =>
    rw [List.rdropWhile_concat]
    split
    · next hzero =>
      have hvalue : digitValue c = 0 := by rw [beq_iff_eq.1 hzero]; rfl
      obtain ⟨j, hj⟩ := ih
      refine ⟨j + 1, ?_⟩
      rw [ofDigitChars_concat, hvalue, Nat.add_zero, Nat.mul_comm, pow_succ, ← Nat.mul_assoc, ← hj]
    · exact ⟨0, (Nat.mul_one _).symm⟩

/-- A number written without a zero in front is at least a power of ten. -/
theorem pow_le_ofDigitChars {c : Char} {rest : List Char} (hdigit : c.isDigit = true)
    (hne : c ≠ '0') : 10 ^ rest.length ≤ Nat.ofDigitChars 10 (c :: rest) 0 := by
  have hpos : 1 ≤ digitValue c := Nat.pos_of_ne_zero (mt (digitValue_eq_zero_iff hdigit).1 hne)
  rw [ofDigitChars_cons_zero]
  exact (Nat.le_mul_of_pos_left _ hpos).trans (Nat.le_add_right _ _)

/-- A number ends in a zero only if its last digit is one. -/
theorem ofDigitChars_concat_mod_ten {digits : List Char} {c : Char} (hdigit : c.isDigit = true)
    (hne : c ≠ '0') : Nat.ofDigitChars 10 (digits ++ [c]) 0 % 10 ≠ 0 := by
  have hpos : digitValue c ≠ 0 := mt (digitValue_eq_zero_iff hdigit).1 hne
  have hle := digitValue_le hdigit
  rw [ofDigitChars_concat]
  omega

/-- Without zeros at its ends a run of digits has just the digits the number
has. -/
theorem hasDigits_ofDigitChars_iff {digits : List Char} {s : ℕ}
    (hdigits : ∀ c ∈ digits, c.isDigit = true) (hfirst : ∀ c rest, digits = c :: rest → c ≠ '0')
    (hlast : ∀ front c, digits = front ++ [c] → c ≠ '0') :
    HasDigits (Nat.ofDigitChars 10 digits 0) s ↔ digits.length ≤ s := by
  refine ⟨fun h => ?_, fun h => (HasDigits.of_lt (ofDigitChars_lt hdigits)).mono h⟩
  rcases List.eq_nil_or_concat' digits with hnil | ⟨front, d, hconcat⟩
  · rw [hnil]
    exact Nat.zero_le s
  · have hd : d ∈ digits := hconcat ▸ List.mem_append_right _ List.mem_cons_self
    have hmod : Nat.ofDigitChars 10 (front ++ [d]) 0 % 10 ≠ 0 :=
      ofDigitChars_concat_mod_ten (hdigits d hd) (hlast _ _ hconcat)
    rw [← hconcat] at hmod
    obtain ⟨c, rest, hcons⟩ := List.exists_cons_of_ne_nil (List.ne_nil_of_mem hd)
    have hc : c ∈ digits := hcons ▸ List.mem_cons_self
    have hpow : 10 ^ rest.length ≤ Nat.ofDigitChars 10 (c :: rest) 0 :=
      pow_le_ofDigitChars (hdigits c hc) (hfirst _ _ hcons)
    rw [← hcons] at hpow
    rw [hcons, List.length_cons]
    exact (Nat.pow_lt_pow_iff_right (by decide)).1 (hpow.trans_lt (h.lt_pow hmod))

/-! ## The digits of a text -/

theorem ne_zero_of_dropWhile {digits rest : List Char} {c : Char}
    (h : digits.dropWhile (· == '0') = c :: rest) : c ≠ '0' := by
  have hne : digits.dropWhile (· == '0') ≠ [] := by simp [h]
  have hnot := List.head_dropWhile_not (· == '0') hne
  simpa [h] using hnot

theorem ne_zero_of_rdropWhile {digits front : List Char} {c : Char}
    (h : digits.rdropWhile (· == '0') = front ++ [c]) : c ≠ '0' := by
  have hne : digits.rdropWhile (· == '0') ≠ [] := by simp [h]
  have hnot := List.rdropWhile_last_not (· == '0') digits hne
  simpa [h] using hnot

/-- **The significant digits of a text are those of the number its digits
make.** -/
theorem DecimalText.significantDigits_le_iff {t : DecimalText} {s : ℕ} :
    t.significantDigits ≤ s ↔ HasDigits (Decimal.ofNumeral t.numeral).digits s := by
  have hdigits : ∀ c ∈ t.numeral.filter Char.isDigit, c.isDigit = true :=
    fun c hc => (List.mem_filter.1 hc).2
  rw [significantDigits, Decimal.ofNumeral]
  generalize t.numeral.filter Char.isDigit = digits at hdigits
  obtain ⟨j, hj⟩ := exists_ofDigitChars_rdropWhile_zero (digits.dropWhile (· == '0'))
  obtain ⟨behind, hprefix⟩ := List.rdropWhile_prefix (· == '0') (digits.dropWhile (· == '0'))
  rw [← ofDigitChars_dropWhile_zero, hj, hasDigits_mul_pow_iff, hasDigits_ofDigitChars_iff]
  · intro c hc
    have hmem := hprefix ▸ List.mem_append_left behind hc
    exact hdigits c ((List.dropWhile_sublist _).mem hmem)
  · intro c rest hcons
    -- what drops out behind leaves the first digit
    rw [hcons, List.cons_append] at hprefix
    exact ne_zero_of_dropWhile hprefix.symm
  · intro front c hconcat
    exact ne_zero_of_rdropWhile hconcat

/-! ## Decimals written out -/

/-- A number is written with a zero in front only if that is all of it: it
would have a digit less otherwise. -/
theorem eq_nil_of_toDigits_eq_zero_cons {n : ℕ} {rest : List Char}
    (h : Nat.toDigits 10 n = '0' :: rest) : rest = [] := by
  by_contra hne
  have hdigits := (Decimal.isDigits_toDigits n).2
  have hvalue := Nat.ofDigitChars_ten_toDigits (n := n)
  rw [h] at hdigits hvalue
  have hlt := ofDigitChars_lt fun c hc => hdigits c (List.mem_cons_of_mem _ hc)
  have hzero : digitValue '0' = 0 := rfl
  rw [ofDigitChars_cons_zero, hzero, Nat.zero_mul, Nat.zero_add] at hvalue
  rw [hvalue, ← Nat.length_toDigits_le_iff (by decide) (List.length_pos_iff.2 hne), h,
    List.length_cons] at hlt
  omega

/-- A fraction that is written with a zero at the end is a multiple of ten. -/
theorem mod_ten_of_getLast_fraction {places n : ℕ}
    (h : (Decimal.fraction places n).getLast? = some '0') : n % 10 = 0 := by
  rw [Decimal.fraction, List.getLast?_append_of_ne_nil _ Nat.toDigits_ne_nil] at h
  obtain ⟨front, hfront⟩ := List.getLast?_eq_some_iff.1 h
  have hvalue := Nat.ofDigitChars_ten_toDigits (n := n)
  have hzero : digitValue '0' = 0 := rfl
  rw [hfront, ofDigitChars_concat] at hvalue
  omega

namespace DecimalText

/-- A decimal behind a sign. -/
def ofDecimal (negative : Bool) (d : Decimal) : DecimalText := ⟨negative, d.chars, d.spells_chars⟩

@[simp] theorem ofDecimal_numeral (negative : Bool) (d : Decimal) :
    (ofDecimal negative d).numeral = d.chars := rfl

/-- **A decimal is written without superfluous zeros** if its last place
holds none. -/
theorem ofDecimal_tidy {d : Decimal} (negative : Bool) (h : d.places ≠ 0 → d.digits % 10 ≠ 0) :
    (ofDecimal negative d).Tidy := by
  obtain ⟨digits, places⟩ := d
  cases places with
  | zero =>
    have hdigits := Decimal.isDigits_toDigits digits
    refine ⟨fun c rest hchars => ?_, fun hpoint => absurd hpoint hdigits.point_not_mem⟩
    exact absurd (eq_nil_of_toDigits_eq_zero_cons hchars) (List.cons_ne_nil c rest)
  | succ p =>
    refine ⟨fun c rest hzero => ?leading, fun _ hzero => h (Nat.succ_ne_zero p) ?trailing⟩
    case leading =>
      have hwhole := Decimal.isDigits_toDigits (digits / 10 ^ (p + 1))
      obtain ⟨d, tail, hcons⟩ := List.exists_cons_of_ne_nil hwhole.1
      rw [ofDecimal_numeral, Decimal.chars_succ, hcons, List.cons_append, List.cons.injEq] at hzero
      obtain ⟨rfl, hrest⟩ := hzero
      rw [eq_nil_of_toDigits_eq_zero_cons hcons] at hrest
      exact (List.cons.inj hrest).1.symm
    case trailing =>
      have hfraction := Decimal.isDigits_fraction (p + 1) (digits % 10 ^ (p + 1))
      rw [ofDecimal_numeral, Decimal.chars_succ,
        List.getLast?_append_of_ne_nil _ (List.cons_ne_nil _ _),
        List.getLast?_cons_of_ne_nil hfraction.1] at hzero
      have hmod := mod_ten_of_getLast_fraction hzero
      rwa [Nat.mod_mod_of_dvd _ (Dvd.intro_left (10 ^ p) (pow_succ 10 p).symm)] at hmod

end DecimalText

end LoxFront
