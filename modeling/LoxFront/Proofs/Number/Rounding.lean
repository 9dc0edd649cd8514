import LoxFront.Proofs.Number.Value
import Mathlib.Tactic.Linarith
/-!
# Decimals are rounded to nearest

How far up a decimal is read among the magnitudes is told by the middles
between neighbours: the magnitudes below the one read are those past whose
middle with the next the decimal lies (`lt_magnitude_nearest_iff`). So it is
read as infinity and as zero just within the bounds there are for this
(`nearest_eq_infinity_iff`, `nearest_eq_zero_iff`), a greater decimal is not
read as less (`magnitude_nearest_mono`), and the double it is read as is the
one it is rounded to (`roundsTo_nearest`). There is no other, since of two
equally near doubles with even significands neither is nearest
(`RoundsTo.unique`).
-/

namespace LoxFront

namespace Double

/-! ## Middles -/

section Middle

variable {a b c q : ℚ}

/-- From the middle of two numbers on the greater one is at least as
near. -/
theorem abs_sub_le_of_middle_le (hlt : a < b) (h : a + b ≤ 2 * q) : |q - b| ≤ |q - a| := by
  have hpos : 0 ≤ q - a := by linarith
  rw [abs_of_nonneg hpos, abs_le]
  constructor <;> linarith

/-- And up to the middle the less one is. -/
theorem abs_sub_le_of_le_middle (hlt : a < b) (h : 2 * q ≤ a + b) : |q - a| ≤ |q - b| := by
  have hneg : q - b ≤ 0 := by linarith
  rw [abs_of_nonpos hneg, abs_le]
  constructor <;> linarith

/-- Two numbers are equally near only from their middle. -/
theorem eq_middle_of_abs_sub_eq (hne : a ≠ b) (h : |q - a| = |q - b|) : a + b = 2 * q := by
  rcases abs_eq_abs.1 h with hsame | hopposite
  · exact (hne (by linarith)).elim
  · linarith

/-- What lies between two equally near numbers is nearer. -/
theorem abs_sub_lt_of_between (hac : a < c) (hcb : c < b) (h : |q - a| = |q - b|) :
    |q - c| < |q - a| := by
  have hmiddle := eq_middle_of_abs_sub_eq (hac.trans hcb).ne h
  have hpos : 0 ≤ q - a := by linarith
  rw [abs_of_nonneg hpos, abs_lt]
  constructor <;> linarith

end Middle

/-! ## The magnitude a decimal is read as -/

/-- A number lies past the middle of a magnitude and the next, or on it if
the next one is even. -/
def PastMiddle (k : ℕ) (q : ℚ) : Prop :=
  if k % 2 = 0 then valueAt k + valueAt (k + 1) < 2 * q else valueAt k + valueAt (k + 1) ≤ 2 * q

namespace PastMiddle

variable {k : ℕ} {q r : ℚ}

theorem mono (h : PastMiddle k q) (hle : q ≤ r) : PastMiddle k r := by
  unfold PastMiddle at h ⊢
  split_ifs at h ⊢ <;> linarith

theorem middle_le (h : PastMiddle k q) : valueAt k + valueAt (k + 1) ≤ 2 * q := by
  unfold PastMiddle at h
  split at h
  · exact h.le
  · exact h

theorem le_middle (h : ¬PastMiddle k q) : 2 * q ≤ valueAt k + valueAt (k + 1) := by
  unfold PastMiddle at h
  split at h
  · exact not_lt.1 h
  · exact (not_le.1 h).le

/-- On the middle the parity decides. -/
theorem iff_of_eq (h : valueAt k + valueAt (k + 1) = 2 * q) : PastMiddle k q ↔ k % 2 = 1 := by
  rw [PastMiddle, h]
  split <;> simp_all

end PastMiddle

/-- A decimal is past a middle if its units are. -/
theorem pastMiddle_iff {k : ℕ} {d : Decimal} :
    PastMiddle k d.value ↔
      if k % 2 = 0 then
        (unitsAt k + unitsAt (k + 1)) * Nat.pow 10 d.places < 2 * (d.digits * Nat.pow 2 1074)
      else
        (unitsAt k + unitsAt (k + 1)) * Nat.pow 10 d.places ≤ 2 * (d.digits * Nat.pow 2 1074) := by
  rw [PastMiddle, valueAt, valueAt, ← add_div, Decimal.value, ← mul_div_assoc]
  generalize 1074 = finest
  have hunit : (0 : ℚ) < 2 ^ finest := pow_pos two_pos finest
  have hten : (0 : ℚ) < 10 ^ d.places := pow_pos (by norm_num) d.places
  rw [div_lt_div_iff₀ hunit hten, div_le_div_iff₀ hunit hten, mul_assoc, Nat.pow_eq, Nat.pow_eq]
  norm_cast

/-- **How far up a decimal is read**: a finite magnitude is below the one
read if the decimal lies past its middle with the next. -/
theorem lt_magnitude_nearest_iff {k : ℕ} {d : Decimal} (hk : k < infinityMagnitude) :
    k < d.nearest.magnitude ↔ PastMiddle k d.value := by
  have hden := pow_pos_of_pos (by decide : 0 < 10) d.places
  have hmin : d.nearest.magnitude =
      min (nearestMagnitude (d.digits * Nat.pow 2 1074) (Nat.pow 10 d.places))
        infinityMagnitude := rfl
  rw [hmin, lt_min_iff, lt_nearestMagnitude_iff hden, pastMiddle_iff]
  exact and_iff_left hk

/-! ## The bounds -/

theorem valueAt_one : valueAt 1 = 1 / 2 ^ 1074 := by
  have hone : unitsAt 1 = 1 := rfl
  rw [valueAt, hone, Nat.cast_one]

theorem valueAt_infinity : valueAt infinityMagnitude = 2 ^ 1024 := by
  have hexponent : infinityMagnitude / 2 ^ 52 - 1 = 2046 := by decide
  have hfraction : infinityMagnitude % 2 ^ 52 = 0 := by decide
  have hunits : unitsAt infinityMagnitude = 2 ^ (1024 + 1074) := by
    rw [unitsAt_eq, if_neg (by decide), hexponent, hfraction, Nat.add_zero, ← pow_add]
  rw [valueAt, hunits, Nat.cast_pow, Nat.cast_ofNat, pow_add]
  exact mul_div_cancel_right₀ _ (pow_ne_zero _ two_ne_zero)

/-- The greatest finite double is a step of `2 ^ 971` below infinity's
value. -/
theorem valueAt_last_add : valueAt (infinityMagnitude - 1) + 2 ^ 971 = 2 ^ 1024 := by
  have hexponent : (infinityMagnitude - 1) / 2 ^ 52 - 1 = 971 + 1074 := by decide
  have hunits := unitsAt_add_one (infinityMagnitude - 1)
  have hnext : infinityMagnitude - 1 + 1 = infinityMagnitude := rfl
  rw [hexponent, hnext] at hunits
  rw [← valueAt_infinity, valueAt, valueAt, hunits, Nat.cast_add, Nat.cast_pow, Nat.cast_ofNat,
    pow_add, add_div, mul_div_cancel_right₀ _ (pow_ne_zero _ two_ne_zero)]

/-- The last middle is the one from which on numbers are out of bounds. -/
theorem pastMiddle_last_iff {q : ℚ} : PastMiddle (infinityMagnitude - 1) q ↔ overflowBound ≤ q := by
  have hodd : (infinityMagnitude - 1) % 2 = 1 := by decide
  have hnext : infinityMagnitude - 1 + 1 = infinityMagnitude := rfl
  have hlast := valueAt_last_add
  rw [PastMiddle, hodd, if_neg one_ne_zero, hnext, valueAt_infinity, overflowBound]
  rw [pow_succ (2 : ℚ) 970] at hlast
  generalize (2 : ℚ) ^ 1024 = bound at hlast ⊢
  generalize (2 : ℚ) ^ 970 = step at hlast ⊢
  constructor <;> intro h <;> linarith

/-- The first middle is half the smallest positive double. -/
theorem pastMiddle_zero_iff {q : ℚ} : PastMiddle 0 q ↔ 1 / 2 ^ 1075 < q := by
  rw [PastMiddle, if_pos rfl, valueAt_zero, zero_add, valueAt_one, pow_succ (2 : ℚ) 1074]
  generalize (2 : ℚ) ^ 1074 = units
  rw [← div_div]
  exact (div_lt_iff₀' two_pos).symm

/-! ## The nearest double -/

/-- A decimal lies past the middles of the magnitude it is read as with
those below, and on one of them only if that magnitude is even. -/
theorem middle_le_of_lt_nearest {d : Decimal} {m : ℕ} (hfinite : d.nearest.isFinite = true)
    (hm : m < d.nearest.magnitude) :
    valueAt m + valueAt d.nearest.magnitude ≤ 2 * d.value ∧
      (valueAt m + valueAt d.nearest.magnitude = 2 * d.value → d.nearest.magnitude % 2 = 0) := by
  have hbound : d.nearest.magnitude < infinityMagnitude := of_decide_eq_true hfinite
  obtain ⟨k, hk⟩ := Nat.exists_eq_add_one_of_ne_zero (Nat.ne_zero_of_lt hm)
  rw [hk] at hm hbound ⊢
  have hpast : PastMiddle k d.value := (lt_magnitude_nearest_iff (by omega)).1 (by omega)
  have hle : valueAt m ≤ valueAt k := valueAt_strictMono.monotone (by omega)
  have hmiddle := hpast.middle_le
  refine ⟨by linarith, fun htie => ?_⟩
  have hodd := (PastMiddle.iff_of_eq (by linarith)).1 hpast
  omega

/-- And it lies no further than its middles with those above. -/
theorem le_middle_of_nearest_lt {d : Decimal} {m : ℕ} (hfinite : d.nearest.isFinite = true)
    (hm : d.nearest.magnitude < m) :
    2 * d.value ≤ valueAt d.nearest.magnitude + valueAt m ∧
      (valueAt d.nearest.magnitude + valueAt m = 2 * d.value → d.nearest.magnitude % 2 = 0) := by
  have hbound : d.nearest.magnitude < infinityMagnitude := of_decide_eq_true hfinite
  have hnot : ¬PastMiddle d.nearest.magnitude d.value := fun hpast =>
    absurd ((lt_magnitude_nearest_iff hbound).2 hpast) (Nat.lt_irrefl _)
  have hle : valueAt (d.nearest.magnitude + 1) ≤ valueAt m := valueAt_strictMono.monotone hm
  have hmiddle := PastMiddle.le_middle hnot
  refine ⟨by linarith, fun htie => ?_⟩
  have heven := mt (PastMiddle.iff_of_eq (by linarith)).2 hnot
  omega

/-- **No magnitude is nearer to a decimal** than the one it is read as,
and none is as near unless that is even. -/
theorem abs_sub_valueAt_le {d : Decimal} (hfinite : d.nearest.isFinite = true) (m : ℕ) :
    |d.value - valueAt d.nearest.magnitude| ≤ |d.value - valueAt m| ∧
      (|d.value - valueAt d.nearest.magnitude| = |d.value - valueAt m| →
        m ≠ d.nearest.magnitude → d.nearest.magnitude % 2 = 0) := by
  rcases Nat.lt_trichotomy m d.nearest.magnitude with hbelow | rfl | habove
  · obtain ⟨hmiddle, htie⟩ := middle_le_of_lt_nearest hfinite hbelow
    have hlt := valueAt_strictMono hbelow
    exact ⟨abs_sub_le_of_middle_le hlt hmiddle,
      fun heq _ => htie (eq_middle_of_abs_sub_eq hlt.ne heq.symm)⟩
  · exact ⟨le_refl _, fun _ hne => (hne rfl).elim⟩
  · obtain ⟨hmiddle, htie⟩ := le_middle_of_nearest_lt hfinite habove
    have hlt := valueAt_strictMono habove
    exact ⟨abs_sub_le_of_le_middle hlt hmiddle,
      fun heq _ => htie (eq_middle_of_abs_sub_eq hlt.ne heq)⟩

/-- Nor is any finite double. One with a set sign bit is no nearer than
zero. -/
theorem abs_sub_value_le {d : Decimal} (hfinite : d.nearest.isFinite = true) (y : Double) :
    |d.value - d.nearest.value| ≤ |d.value - y.value| ∧
      (|d.value - d.nearest.value| = |d.value - y.value| → d.nearest.value ≠ y.value →
        Even d.nearest.significand) := by
  have hvalue := value_of_clear d.nearest_negative
  rw [even_significand_iff, hvalue]
  cases hsign : y.negative with
  | false =>
    rw [value_of_clear hsign]
    obtain ⟨hle, htie⟩ := abs_sub_valueAt_le hfinite y.magnitude
    exact ⟨hle, fun heq hne => htie heq fun hsame => hne (congrArg valueAt hsame.symm)⟩
  | true =>
    have hnonneg := d.value_nonneg
    have hy := valueAt_nonneg y.magnitude
    obtain ⟨hle, htie⟩ := abs_sub_valueAt_le hfinite 0
    rw [valueAt_zero, sub_zero, abs_of_nonneg hnonneg] at hle htie
    rw [value_of_set hsign, sub_neg_eq_add, abs_of_nonneg (add_nonneg hnonneg hy)]
    refine ⟨by linarith, fun heq hne => htie (by linarith) fun hzero => hne ?_⟩
    have hboth : valueAt y.magnitude = 0 := by linarith
    rw [← hzero, valueAt_zero, hboth, neg_zero]

/-- A decimal out of bounds is read as infinity, and no other is. -/
theorem nearest_eq_infinity_iff {d : Decimal} :
    d.nearest = infinity ↔ overflowBound ≤ d.value := by
  have hlast := lt_magnitude_nearest_iff (d := d) (k := infinityMagnitude - 1) (by decide)
  have hle : d.nearest.magnitude ≤ infinityMagnitude := Nat.min_le_right _ _
  have hpos : 0 < infinityMagnitude := by decide
  have hsame : d.nearest = infinity ↔ d.nearest.magnitude = infinityMagnitude :=
    ⟨fun h => congrArg magnitude h, fun h => Double.ext rfl h⟩
  rw [hsame, ← pastMiddle_last_iff, ← hlast]
  omega

theorem isFinite_nearest {d : Decimal} (h : d.value < overflowBound) :
    d.nearest.isFinite = true := by
  have hle : d.nearest.magnitude ≤ infinityMagnitude := Nat.min_le_right _ _
  refine decide_eq_true (lt_of_le_of_ne hle fun hsame => ?_)
  exact absurd (nearest_eq_infinity_iff.1 (Double.ext rfl hsame)) (not_le.2 h)

/-- **A decimal is rounded to the double it is read as.** -/
theorem roundsTo_nearest (d : Decimal) : RoundsTo d.value d.nearest := by
  refine ⟨rfl, ?_⟩
  split
  · next hbound => exact nearest_eq_infinity_iff.2 hbound
  · next hbound =>
    have hfinite := isFinite_nearest (not_le.1 hbound)
    exact ⟨hfinite, fun y _ => abs_sub_value_le hfinite y⟩

theorem nearest_eq_zero_iff {d : Decimal} : d.nearest = zero ↔ d.value ≤ 1 / 2 ^ 1075 := by
  have hfirst := lt_magnitude_nearest_iff (d := d) (k := 0) (by decide)
  have hsame : d.nearest = zero ↔ ¬0 < d.nearest.magnitude :=
    ⟨fun h => by rw [h]; decide, fun h => Double.ext rfl (Nat.eq_zero_of_not_pos h)⟩
  rw [hsame, hfirst, pastMiddle_zero_iff, not_lt]

/-- A greater decimal is not read as a smaller magnitude. -/
theorem magnitude_nearest_mono {c d : Decimal} (h : c.value ≤ d.value) :
    c.nearest.magnitude ≤ d.nearest.magnitude := by
  by_contra hgreater
  rw [not_le] at hgreater
  have hfinite : d.nearest.magnitude < infinityMagnitude :=
    hgreater.trans_le (Nat.min_le_right _ _)
  have hpast := ((lt_magnitude_nearest_iff hfinite).1 hgreater).mono h
  exact absurd ((lt_magnitude_nearest_iff hfinite).2 hpast) (Nat.lt_irrefl _)

theorem isFinite_nearest_mono {c d : Decimal} (h : c.value ≤ d.value)
    (hd : d.nearest.isFinite = true) : c.nearest.isFinite = true :=
  decide_eq_true ((magnitude_nearest_mono h).trans_lt (of_decide_eq_true hd))

/-- **A greater decimal is not read as less.** -/
theorem value_nearest_mono {c d : Decimal} (h : c.value ≤ d.value) :
    c.nearest.value ≤ d.nearest.value := by
  rw [value_of_clear c.nearest_negative, value_of_clear d.nearest_negative]
  exact valueAt_strictMono.monotone (magnitude_nearest_mono h)

/-! ## There is no other -/

/-- With a clear sign bit a double is known by its value. -/
theorem eq_of_value_eq {x y : Double} (hx : x.negative = false) (hy : y.negative = false)
    (h : x.value = y.value) : x = y := by
  rw [value_of_clear hx, value_of_clear hy] at h
  exact Double.ext (hx.trans hy.symm) (valueAt_strictMono.injective h)

/-- Between two doubles with even significands there is another, and it is
nearer than both if they are equally near. -/
theorem exists_nearer {x y : Double} {q : ℚ} (hx : x.negative = false) (hy : y.negative = false)
    (hlt : x.magnitude < y.magnitude) (hxeven : Even x.significand) (hyeven : Even y.significand)
    (htie : |q - x.value| = |q - y.value|) :
    ∃ z : Double, z.magnitude < y.magnitude ∧ |q - z.value| < |q - x.value| := by
  rw [even_significand_iff] at hxeven hyeven
  have hnext : x.magnitude + 1 < y.magnitude := by omega
  let z : Double := ⟨false, x.magnitude + 1, hnext.trans y.magnitude_lt⟩
  have hz : z.value = valueAt (x.magnitude + 1) := value_of_clear rfl
  refine ⟨z, hnext, ?_⟩
  rw [value_of_clear hx, value_of_clear hy] at htie
  rw [value_of_clear hx, hz]
  have hstep : valueAt x.magnitude < valueAt (x.magnitude + 1) :=
    valueAt_strictMono (Nat.lt_add_one _)
  exact abs_sub_lt_of_between hstep (valueAt_strictMono hnext) htie

theorem RoundsTo.finite {q : ℚ} {x : Double} (h : RoundsTo q x) (hq : q < overflowBound) :
    x.isFinite = true ∧ ∀ y : Double, y.isFinite = true →
      |q - x.value| ≤ |q - y.value| ∧
        (|q - x.value| = |q - y.value| → x.value ≠ y.value → Even x.significand) := by
  have hx := h.2
  rwa [if_neg (not_le.2 hq)] at hx

/-- Of two doubles a number is rounded to, none is above the other: both
would be as near and have even significands, and one between be nearer. -/
theorem RoundsTo.magnitude_le {q : ℚ} {x y : Double} (hx : RoundsTo q x) (hy : RoundsTo q y)
    (hq : q < overflowBound) : y.magnitude ≤ x.magnitude := by
  obtain ⟨hxfinite, hxnear⟩ := hx.finite hq
  obtain ⟨hyfinite, hynear⟩ := hy.finite hq
  have htie := le_antisymm (hxnear y hyfinite).1 (hynear x hxfinite).1
  by_contra hgreater
  rw [not_le] at hgreater
  have hvalue : x.value ≠ y.value := fun h =>
    hgreater.ne (congrArg magnitude (eq_of_value_eq hx.1 hy.1 h))
  have hxeven := (hxnear y hyfinite).2 htie hvalue
  have hyeven := (hynear x hxfinite).2 htie.symm hvalue.symm
  obtain ⟨z, hz, hnearer⟩ := exists_nearer hx.1 hy.1 hgreater hxeven hyeven htie
  have hzfinite : z.isFinite = true := decide_eq_true (hz.trans (of_decide_eq_true hyfinite))
  exact absurd (hxnear z hzfinite).1 (not_le.2 hnearer)

/-- **A number is rounded to one double.** -/
theorem RoundsTo.unique {q : ℚ} {x y : Double} (hx : RoundsTo q x) (hy : RoundsTo q y) :
    x = y := by
  by_cases hq : overflowBound ≤ q
  · have hxbound := hx.2
    have hybound := hy.2
    rw [if_pos hq] at hxbound hybound
    rw [hxbound, hybound]
  · rw [not_le] at hq
    have hsame := le_antisymm (hy.magnitude_le hx hq) (hx.magnitude_le hy hq)
    exact Double.ext (hx.1.trans hy.1.symm) hsame

theorem roundsTo_value_iff {d : Decimal} {x : Double} : RoundsTo d.value x ↔ x = d.nearest :=
  ⟨fun h => h.unique (roundsTo_nearest d), fun h => h ▸ roundsTo_nearest d⟩

end Double

end LoxFront
