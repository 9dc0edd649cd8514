import LoxFront.Number.Nearest
import LoxFront.Proofs.Number.Numeral
/-!
# Numbers are read back

How far up a decimal is read is told by the middles between neighbours
(`lt_nearestMagnitude_iff`). So the decimals that are read as a double are
those in a range around its value, from the middle below to the middle above
(`InRange`, `nearestMagnitude_eq_iff`). What is written is searched for in
that range (`readsBack_iff`), so a finite number that is written out is read
as itself (`nearest_shortest`). Hence two numbers that are no NaN are never
written alike (`text_injective`).
-/

namespace LoxFront

namespace Double

/-! ## The nearest magnitude -/

/-- From one magnitude up to the next the middle of the two decides whether
the first is below the nearer one, and the parity on the middle. -/
theorem lt_nearerMagnitude_iff {low num den : ℕ} :
    low < nearerMagnitude num den low ↔
      if low % 2 = 0 then (unitsAt low + unitsAt (low + 1)) * den < 2 * num
      else (unitsAt low + unitsAt (low + 1)) * den ≤ 2 * num := by
  rw [nearerMagnitude]
  generalize (unitsAt low + unitsAt (low + 1)) * den = middle
  rcases Nat.lt_trichotomy (2 * num) middle with hlt | heq | hgt
  · simp only [Nat.compare_eq_lt.2 hlt]
    split <;> omega
  · simp only [Nat.compare_eq_eq.2 heq]
    split <;> omega
  · simp only [Nat.compare_eq_gt.2 hgt]
    split <;> omega

theorem nearerMagnitude_bounds (num den low : ℕ) :
    low ≤ nearerMagnitude num den low ∧ nearerMagnitude num den low ≤ low + 1 := by
  rw [nearerMagnitude]
  split
  · omega
  · omega
  · split <;> omega

/-- **How far up the nearest magnitude is**: it is above those whose middle
with the next the units reach past. -/
theorem lt_nearestMagnitude_iff {k num den : ℕ} (hden : 0 < den) :
    k < nearestMagnitude num den ↔
      if k % 2 = 0 then (unitsAt k + unitsAt (k + 1)) * den < 2 * num
      else (unitsAt k + unitsAt (k + 1)) * den ≤ 2 * num := by
  obtain ⟨hfloor, hceil⟩ := unitsAt_floorMagnitude (num / den)
  rw [Nat.le_div_iff_mul_le hden] at hfloor
  rw [Nat.div_lt_iff_lt_mul hden] at hceil
  rw [nearestMagnitude]
  generalize floorMagnitude (num / den) = low at hfloor hceil
  have hstep := Nat.mul_lt_mul_of_pos_right (unitsAt_strictMono (Nat.lt_add_one k)) hden
  obtain ⟨hlow, hhigh⟩ := nearerMagnitude_bounds num den low
  rcases Nat.lt_trichotomy k low with hbelow | rfl | habove
  · -- the units are no less than the next magnitude's
    have hreach := Nat.mul_le_mul_right den
      (unitsAt_strictMono.monotone (Nat.add_one_le_of_lt hbelow))
    rw [Nat.add_mul]
    split <;> omega
  · exact lt_nearerMagnitude_iff
  · -- the units are less than this magnitude's
    have hreach := Nat.mul_le_mul_right den
      (unitsAt_strictMono.monotone (Nat.add_one_le_of_lt habove))
    rw [Nat.add_mul]
    split <;> omega

/-! ## The range of a magnitude -/

/-- **So many units are in the range of a magnitude**: they lie between the
middles to its neighbours, or on one of them if it is even. -/
def InRange (k num den : Nat) : Prop :=
  let low := (unitsAt (k - 1) + unitsAt k) * den
  let high := (unitsAt k + unitsAt (k + 1)) * den
  if k % 2 = 0 then low ≤ 2 * num ∧ 2 * num ≤ high else low < 2 * num ∧ 2 * num < high

/-- The range is the same however a quotient is written. -/
theorem inRange_mul {k num den c : Nat} (hc : 0 < c) :
    InRange k (num * c) (den * c) ↔ InRange k num den := by
  unfold InRange
  simp only [← Nat.mul_assoc, Nat.mul_le_mul_right_iff hc, Nat.mul_lt_mul_right hc]

theorem inRange_self (k : Nat) {den : Nat} (hden : 0 < den) : InRange k (unitsAt k * den) den := by
  have hbelow : unitsAt (k - 1) ≤ unitsAt k := unitsAt_strictMono.monotone (Nat.sub_le k 1)
  have habove : unitsAt k < unitsAt (k + 1) := unitsAt_strictMono (Nat.lt_succ_self k)
  have hdown := Nat.mul_le_mul_right den hbelow
  have hup := Nat.mul_lt_mul_of_pos_right habove hden
  unfold InRange
  simp only [Nat.add_mul]
  split
  · omega
  · next hodd =>
    have hpred : unitsAt (k - 1) < unitsAt k := unitsAt_strictMono (by omega)
    have hstrict := Nat.mul_lt_mul_of_pos_right hpred hden
    omega

/-- **Units are read as the magnitude in whose range they are**, and as no
other. -/
theorem nearestMagnitude_eq_iff {k num den : Nat} (hden : 0 < den) :
    nearestMagnitude num den = k ↔ InRange k num den := by
  have habove : k < nearestMagnitude num den ↔ _ := lt_nearestMagnitude_iff hden
  unfold InRange
  cases k with
  | zero =>
    -- there is no middle below zero
    have hbottom : (unitsAt (0 - 1) + unitsAt 0) * den = 0 := Nat.zero_mul den
    rw [if_pos rfl] at habove ⊢
    omega
  | succ k =>
    have hbelow : k < nearestMagnitude num den ↔ _ := lt_nearestMagnitude_iff hden
    rw [Nat.add_sub_cancel]
    generalize (unitsAt k + unitsAt (k + 1)) * den = low at hbelow ⊢
    split at habove <;> split at hbelow <;> split <;> omega

/-! ## The decimals that are written -/

/-- A point reads back if it is in the range. -/
theorem readsBack_iff {k point : Nat} :
    readsBack k point = true ↔ InRange k point (Nat.pow 5 1074) := by
  simp only [readsBack, InRange, decimalUnitsAt, ← Nat.add_mul]
  generalize Nat.pow 5 1074 = den
  split
  · exact decide_eq_true_iff
  · exact decide_eq_true_iff

theorem readsBack_of_gridPoint {k step point : Nat} (h : gridPoint? k step = some point) :
    readsBack k point = true := by
  unfold gridPoint? at h
  simp only at h
  split at h
  · next hbelow =>
    split at h
    · next habove =>
      cases h
      exact ((Bool.and_eq_true _ _).mp habove).1
    · cases h
      exact hbelow
  · split at h
    · next habove =>
      cases h
      exact habove
    · cases h

theorem pow_pos_of_pos {b : Nat} (hb : 0 < b) (n : Nat) : 0 < Nat.pow b n := Nat.pow_pos hb

/-- **What is found reads back**, on whatever grid it is found. -/
theorem readsBack_shortestPoint (k grid : Nat) : readsBack k (shortestPoint k grid) = true := by
  induction grid with
  | zero =>
    rw [readsBack_iff, shortestPoint, decimalUnitsAt]
    generalize 1074 = finest
    exact inRange_self k (pow_pos_of_pos (by decide) finest)
  | succ grid ih =>
    rw [shortestPoint]
    cases hpoint : gridPoint? k (Nat.pow 10 (grid + 1)) with
    | none => exact ih
    | some point => exact readsBack_of_gridPoint hpoint

/-- A decimal of at most so many places is in the range its point on the
finest grid is in. -/
theorem inRange_of_point {k digits places finest : Nat} (hplaces : places ≤ finest)
    (h : InRange k (digits * Nat.pow 10 (finest - places)) (Nat.pow 5 finest)) :
    InRange k (digits * Nat.pow 2 finest) (Nat.pow 10 places) := by
  have hnum : digits * 10 ^ (finest - places) * 2 ^ finest =
      digits * 2 ^ finest * 10 ^ (finest - places) := by ring
  have hden : 5 ^ finest * 2 ^ finest = 10 ^ places * 10 ^ (finest - places) := by
    rw [← Nat.mul_pow, ← pow_add, Nat.add_sub_cancel' hplaces]
  have hscaled : InRange k (digits * 10 ^ (finest - places) * 2 ^ finest)
      (5 ^ finest * 2 ^ finest) := (inRange_mul (Nat.two_pow_pos finest)).2 h
  rw [hnum, hden] at hscaled
  exact (inRange_mul (Nat.pow_pos (by decide))).1 hscaled

/-- Trimming a point does not move it. -/
theorem inRange_trimmed {k point finest : Nat} (h : InRange k point (Nat.pow 5 finest)) :
    InRange k ((Decimal.trimmed point finest).digits * Nat.pow 2 finest)
      (Nat.pow 10 (Decimal.trimmed point finest).places) := by
  apply inRange_of_point (Decimal.places_trimmed_le point finest)
  rwa [Decimal.digits_trimmed]

/-- **A decimal is read as the finite magnitude in whose range it is.** -/
theorem magnitude_nearest_eq_iff {d : Decimal} {k : Nat} (hk : k < infinityMagnitude) :
    d.nearest.magnitude = k ↔ InRange k (d.digits * Nat.pow 2 1074) (Nat.pow 10 d.places) := by
  have hden := pow_pos_of_pos (by decide : 0 < 10) d.places
  have hmin : d.nearest.magnitude =
      min (nearestMagnitude (d.digits * Nat.pow 2 1074) (Nat.pow 10 d.places))
        infinityMagnitude := rfl
  rw [hmin, ← nearestMagnitude_eq_iff hden]
  omega

theorem inRange_shortest (k : Nat) :
    InRange k ((shortest k).digits * Nat.pow 2 1074) (Nat.pow 10 (shortest k).places) := by
  have hpoint := readsBack_iff.1
    (readsBack_shortestPoint k ((Nat.toDigits 10 (decimalUnitsAt k)).length - 1))
  rw [shortest]
  generalize 1074 = finest at hpoint ⊢
  exact inRange_trimmed hpoint

/-- **A finite magnitude that is written is read back.** -/
theorem nearest_shortest {k : Nat} (h : k < infinityMagnitude) :
    (shortest k).nearest.magnitude = k :=
  (magnitude_nearest_eq_iff h).2 (inRange_shortest k)

/-! ## Texts of numbers -/

theorem magnitude_nearest_unsignedChars {x : Double} (h : x.isFinite = true) :
    (Decimal.ofNumeral x.unsignedChars).nearest.magnitude = x.magnitude := by
  rw [unsignedChars, if_pos h, Decimal.ofNumeral_chars]
  exact nearest_shortest (of_decide_eq_true h)

/-- **A finite number with a clear sign bit is read back from its text.** -/
theorem nearest_unsignedChars {x : Double} (hfinite : x.isFinite = true)
    (hsign : x.negative = false) : (Decimal.ofNumeral x.unsignedChars).nearest = x := by
  refine Double.ext ?_ (magnitude_nearest_unsignedChars hfinite)
  rw [Decimal.nearest_negative, hsign]

theorem toList_text_of_finite {x : Double} (hfinite : x.isFinite = true)
    (hsign : x.negative = false) : x.text.toList = x.unsignedChars := by
  rw [toList_text (isNaN_of_isFinite hfinite), hsign, if_neg Bool.false_ne_true]

/-- **The text of a finite number with a clear sign bit is a numeral.** -/
theorem spells_text {x : Double} (hfinite : x.isFinite = true) (hsign : x.negative = false) :
    TokenKind.number.Spells x.text.toList := by
  rw [toList_text_of_finite hfinite hsign, unsignedChars, if_pos hfinite]
  exact Decimal.spells_chars _

/-- Only a finite number starts with a digit behind its sign. -/
theorem exists_unsignedChars_cons (x : Double) :
    ∃ c rest, x.unsignedChars = c :: rest ∧ c.isDigit = x.isFinite ∧ c ≠ '-' ∧ c ≠ 'N' := by
  cases hfinite : x.isFinite with
  | true =>
    obtain ⟨c, rest, hchars, hdigit⟩ := Decimal.exists_chars_cons (shortest x.magnitude)
    refine ⟨c, rest, by rw [unsignedChars, if_pos hfinite, hchars], hdigit, ?_⟩
    constructor <;> rintro rfl <;> exact absurd hdigit (by decide)
  | false =>
    refine ⟨'i', ['n', 'f'], by simp [unsignedChars, hfinite], ?_⟩
    decide

/-- The magnitude of a number that is no NaN can be told from its text. -/
theorem magnitude_eq_of_unsignedChars {x y : Double} (hx : x.isNaN = false) (hy : y.isNaN = false)
    (h : x.unsignedChars = y.unsignedChars) : x.magnitude = y.magnitude := by
  obtain ⟨c, rest, hxchars, hxfinite, -⟩ := exists_unsignedChars_cons x
  obtain ⟨d, tail, hychars, hyfinite, -⟩ := exists_unsignedChars_cons y
  have hhead : c = d := by
    rw [hxchars, hychars] at h
    exact (List.cons.inj h).1
  have hfinite : x.isFinite = y.isFinite := by rw [← hxfinite, ← hyfinite, hhead]
  cases hx' : x.isFinite with
  | true =>
    have hy' := hfinite.symm.trans hx'
    rw [← magnitude_nearest_unsignedChars hx', h, magnitude_nearest_unsignedChars hy']
  | false =>
    -- neither finite nor a NaN, both are infinite
    have hy' := hfinite.symm.trans hx'
    have hxle := Nat.not_lt.1 (of_decide_eq_false hx)
    have hyle := Nat.not_lt.1 (of_decide_eq_false hy)
    have hxge := Nat.not_lt.1 (of_decide_eq_false hx')
    have hyge := Nat.not_lt.1 (of_decide_eq_false hy')
    omega

/-- No other number is written as a NaN is. -/
theorem text_ne_of_isNaN {x y : Double} (hx : x.isNaN = true) (hy : y.isNaN = false) :
    x.text ≠ y.text := by
  intro h
  obtain ⟨c, rest, hchars, -, -, hne⟩ := exists_unsignedChars_cons y
  have hnan : 'N' :: ['a', 'N'] = y.text.toList := by
    rw [← h, text_of_isNaN hx]
    rfl
  rw [toList_text hy, hchars] at hnan
  split at hnan
  · exact absurd (List.cons.inj hnan).1 (by decide)
  · exact hne (List.cons.inj hnan).1.symm

/-- **Numbers that are no NaN are told apart by their texts**, bit for
bit. -/
theorem text_injective {x y : Double} (hx : x.isNaN = false) (hy : y.isNaN = false)
    (h : x.text = y.text) : x = y := by
  obtain ⟨c, rest, hxchars, -, hxsign, -⟩ := exists_unsignedChars_cons x
  obtain ⟨d, tail, hychars, -, hysign, -⟩ := exists_unsignedChars_cons y
  have htext := congrArg String.toList h
  rw [toList_text hx, toList_text hy] at htext
  cases hxneg : x.negative <;> cases hyneg : y.negative <;> rw [hxneg, hyneg] at htext
  · exact Double.ext (hxneg.trans hyneg.symm) (magnitude_eq_of_unsignedChars hx hy htext)
  · rw [if_neg Bool.false_ne_true, hxchars] at htext
    exact absurd (List.cons.inj htext).1 hxsign
  · rw [if_neg Bool.false_ne_true, hychars] at htext
    exact absurd (List.cons.inj htext).1.symm hysign
  · exact Double.ext (hxneg.trans hyneg.symm)
      (magnitude_eq_of_unsignedChars hx hy (List.cons.inj htext).2)

end Double

end LoxFront
