import LoxFront.Proofs.Number.DecimalText
import LoxFront.Proofs.Number.Rounding
/-!
# The search for the shortest decimal

The decimals that are read as one magnitude lie together
(`magnitude_nearest_of_between`), and one of few digits does not lie between
two neighbouring points of a grid on which the value has as many
(`side_of_hasDigits`). So if one of them has few digits, the point on its
side reads back (`readsBack_side`), and a point is found on a coarse grid
(`exists_grid`). Hence no decimal of fewer digits is read as the magnitude
than the one that is written (`hasDigits_shortest`), and none of as few is
closer to its value (`abs_sub_value_shortest_le`).
-/

namespace LoxFront

namespace Decimal

/-- Of a whole number trimming leaves no places. -/
theorem places_trimmed_of_dvd {digits places : ℕ} (h : 10 ^ places ∣ digits) :
    (trimmed digits places).places = 0 := by
  induction places generalizing digits with
  | zero => rfl
  | succ p ih =>
    rw [pow_succ] at h
    have hten : 10 ∣ digits := (Dvd.intro_left _ rfl).trans h
    rw [trimmed, if_pos (Nat.mod_eq_zero_of_dvd hten)]
    exact ih (Nat.dvd_div_of_mul_dvd (by rwa [Nat.mul_comm] at h))

end Decimal

namespace Double

variable {k g n : ℕ}

/-! ## Points of the finest grid -/

/-- A point as a decimal. -/
def pointDecimal (point : ℕ) : Decimal := ⟨point, 1074⟩

/-- Points compare as their decimals do. -/
theorem value_pointDecimal_le_iff {a b : ℕ} :
    (pointDecimal a).value ≤ (pointDecimal b).value ↔ a ≤ b := by
  rw [Decimal.value_le_iff, pointDecimal, pointDecimal]
  generalize 1074 = finest
  exact Nat.mul_le_mul_right_iff (ten_pow_pos finest)

theorem value_pointDecimal_add (a b : ℕ) :
    (pointDecimal (a + b)).value = (pointDecimal a).value + (pointDecimal b).value := by
  rw [pointDecimal, pointDecimal, pointDecimal, Decimal.value, Decimal.value, Decimal.value]
  generalize 1074 = finest
  rw [← add_div, Nat.cast_add]

/-- The value of a magnitude is a point too. -/
theorem value_pointDecimal_decimalUnitsAt (k : ℕ) :
    (pointDecimal (decimalUnitsAt k)).value = valueAt k := by
  rw [pointDecimal, Decimal.value, valueAt, decimalUnitsAt]
  generalize 1074 = finest
  have hten : (10 : ℚ) ^ finest = 2 ^ finest * 5 ^ finest := by
    rw [← mul_pow]
    norm_num
  rw [hten, Nat.pow_eq, Nat.cast_mul, Nat.cast_pow, Nat.cast_ofNat]
  exact mul_div_mul_right _ _ (pow_ne_zero _ (by norm_num))

/-- A point reads back if it is read as the magnitude. -/
theorem readsBack_iff_nearest {point : ℕ} (hk : k < infinityMagnitude) :
    readsBack k point = true ↔ (pointDecimal point).nearest.magnitude = k := by
  rw [readsBack_iff, magnitude_nearest_eq_iff hk, pointDecimal]
  generalize 1074 = finest
  have hten : Nat.pow 10 finest = Nat.pow 5 finest * Nat.pow 2 finest := Nat.mul_pow 5 2 finest
  rw [hten]
  exact (inRange_mul (Nat.two_pow_pos finest)).symm

/-- What lies between two decimals that are read as one magnitude is read as
it too. -/
theorem magnitude_nearest_of_between {a b c : Decimal} (ha : a.nearest.magnitude = k)
    (hc : c.nearest.magnitude = k) (hab : a.value ≤ b.value) (hbc : b.value ≤ c.value) :
    b.nearest.magnitude = k :=
  le_antisymm (hc ▸ magnitude_nearest_mono hbc) (ha ▸ magnitude_nearest_mono hab)

/-! ## The grids -/

/-- The greatest point of a grid that is not above a magnitude's value. -/
def gridBelow (k g : ℕ) : ℕ := decimalUnitsAt k / 10 ^ g * 10 ^ g

/-- The next point of the grid. -/
def gridAbove (k g : ℕ) : ℕ := gridBelow k g + 10 ^ g

theorem gridBelow_le (k g : ℕ) : gridBelow k g ≤ decimalUnitsAt k := Nat.div_mul_le_self _ _

/-- The value lies below the next point of the grid, so that and `gridBelow`
enclose it. -/
theorem lt_gridAbove (k g : ℕ) : decimalUnitsAt k < gridAbove k g := by
  have hmod := Nat.mod_lt (decimalUnitsAt k) (ten_pow_pos g)
  have hdiv := Nat.div_add_mod' (decimalUnitsAt k) (10 ^ g)
  rw [gridAbove, gridBelow]
  omega

theorem gridPoint_eq (k g : ℕ) :
    gridPoint? k (10 ^ g) =
      if readsBack k (gridBelow k g) then
        if readsBack k (gridAbove k g) &&
            decide (gridBelow k g + gridAbove k g ≤ 2 * decimalUnitsAt k) then
          some (gridAbove k g)
        else some (gridBelow k g)
      else if readsBack k (gridAbove k g) then some (gridAbove k g)
      else none := rfl

/-- **What is found on a grid** is one of the two points around the value,
and the nearer one if the other reads back too. -/
theorem gridPoint_eq_some {point : ℕ} (h : gridPoint? k (10 ^ g) = some point) :
    (point = gridBelow k g ∧ (readsBack k (gridAbove k g) = true →
      2 * decimalUnitsAt k < gridBelow k g + gridAbove k g)) ∨
    (point = gridAbove k g ∧ (readsBack k (gridBelow k g) = true →
      gridBelow k g + gridAbove k g ≤ 2 * decimalUnitsAt k)) := by
  rw [gridPoint_eq] at h
  split at h
  · split at h
    · next hboth =>
      rw [Bool.and_eq_true, decide_eq_true_iff] at hboth
      exact .inr ⟨(Option.some.inj h).symm, fun _ => hboth.2⟩
    · next hnearer =>
      refine .inl ⟨(Option.some.inj h).symm, fun habove => ?_⟩
      rw [habove, Bool.true_and, decide_eq_true_iff] at hnearer
      exact Nat.not_le.1 hnearer
  · next hbelow =>
    split at h
    · exact .inr ⟨(Option.some.inj h).symm, fun h' => absurd h' hbelow⟩
    · cases h

/-- Where nothing is found neither of the two reads back. -/
theorem not_readsBack_of_gridPoint_eq_none (h : gridPoint? k (10 ^ g) = none) :
    ¬readsBack k (gridBelow k g) = true ∧ ¬readsBack k (gridAbove k g) = true := by
  rw [gridPoint_eq] at h
  split at h
  · split at h <;> cases h
  · next hbelow =>
    split at h
    · cases h
    · next habove => exact ⟨hbelow, habove⟩

/-- On the finest grid the value itself is found. -/
theorem gridPoint_finest (k : ℕ) : gridPoint? k (10 ^ 0) = some (decimalUnitsAt k) := by
  have hbelow : gridBelow k 0 = decimalUnitsAt k := by rw [gridBelow, pow_zero, Nat.div_one, mul_one]
  have hself : readsBack k (decimalUnitsAt k) = true := readsBack_shortestPoint k 0
  have hnearer : ¬decimalUnitsAt k + gridAbove k 0 ≤ 2 * decimalUnitsAt k := by
    have := lt_gridAbove k 0
    omega
  rw [gridPoint_eq, hbelow, if_pos hself, if_neg]
  simp [hnearer]

/-- **The grid that is found** is the coarsest one on which there is a point
that reads back. -/
theorem exists_grid (k grid : ℕ) :
    ∃ g ≤ grid, gridPoint? k (10 ^ g) = some (shortestPoint k grid) ∧
      ∀ h, g < h → h ≤ grid → gridPoint? k (10 ^ h) = none := by
  induction grid with
  | zero =>
    refine ⟨0, le_refl 0, gridPoint_finest k, fun h hlt hle => ?_⟩
    exact absurd hle (Nat.not_le.2 hlt)
  | succ grid ih =>
    cases hpoint : gridPoint? k (Nat.pow 10 (grid + 1)) with
    | some point =>
      refine ⟨grid + 1, le_refl _, ?_, fun h hlt hle => absurd hle (Nat.not_le.2 hlt)⟩
      rw [shortestPoint, hpoint]
      exact hpoint
    | none =>
      -- the search goes on, with one more grid that has no point
      obtain ⟨g, hg, hfound, hcoarser⟩ := ih
      refine ⟨g, Nat.le_succ_of_le hg, ?_, fun h hlt hle => ?_⟩
      · rw [shortestPoint, hpoint]
        exact hfound
      · rcases Nat.le_succ_iff.1 hle with hle | rfl
        · exact hcoarser h hlt hle
        · exact hpoint

/-! ## Decimals of few digits -/

/-- **A number of few digits does not lie between two neighbouring points of
a grid** on which the value has as many: it would be a point of the grid, or
less than all of these with so many digits. -/
theorem side_of_hasDigits {value digits n l g f p : ℕ} (hdigits : HasDigits digits n)
    (hvalue : 10 ^ l ≤ value) (hg : g ≤ l) (hn : n + g ≤ l + 1) :
    digits * 10 ^ f ≤ value / 10 ^ g * 10 ^ g * 10 ^ p ∨
      (value / 10 ^ g * 10 ^ g + 10 ^ g) * 10 ^ p ≤ digits * 10 ^ f := by
  obtain ⟨m, e, hm, rfl⟩ := hdigits
  rw [Nat.mul_assoc, ← pow_add]
  rcases Nat.lt_or_ge (e + f) (g + p) with hfine | hcoarse
  · -- less than any number with a digit more
    have hpow : 10 ^ (l - g) ≤ value / 10 ^ g := by
      rwa [Nat.le_div_iff_mul_le (ten_pow_pos g), ← pow_add, Nat.sub_add_cancel hg]
    refine .inl ?_
    calc m * 10 ^ (e + f) ≤ 10 ^ n * 10 ^ (e + f) := Nat.mul_le_mul_right _ hm.le
      _ = 10 ^ (n + (e + f)) := (pow_add 10 n (e + f)).symm
      _ ≤ 10 ^ (l - g + g + p) := Nat.pow_le_pow_right (by decide) (by omega)
      _ = 10 ^ (l - g) * 10 ^ g * 10 ^ p := by rw [pow_add, pow_add]
      _ ≤ value / 10 ^ g * 10 ^ g * 10 ^ p :=
        Nat.mul_le_mul_right _ (Nat.mul_le_mul_right _ hpow)
  · -- a point of the grid
    obtain ⟨i, hi⟩ := Nat.exists_eq_add_of_le' hcoarse
    rw [hi, pow_add, pow_add, ← Nat.mul_assoc, ← Nat.mul_assoc, ← Nat.succ_mul]
    refine (Nat.lt_or_ge (value / 10 ^ g) (m * 10 ^ i)).symm.imp (fun hle => ?_) (fun hlt => ?_)
    · exact Nat.mul_le_mul_right _ (Nat.mul_le_mul_right _ hle)
    · exact Nat.mul_le_mul_right _ (Nat.mul_le_mul_right _ hlt)

/-! ## The search -/

section Search

variable {d : Decimal}

/-- The place of the first digit of a magnitude's value. -/
def firstPlace (k : ℕ) : ℕ := (Nat.toDigits 10 (decimalUnitsAt k)).length - 1

theorem decimalUnitsAt_lt (k : ℕ) : decimalUnitsAt k < 10 ^ (firstPlace k + 1) := by
  rw [← Nat.length_toDigits_le_iff (by decide) (Nat.succ_pos _), firstPlace]
  omega

theorem decimalUnitsAt_pos (hk : k ≠ 0) : 0 < decimalUnitsAt k := by
  have hunits : 0 < unitsAt k := (Nat.zero_le _).trans_lt (unitsAt_strictMono (Nat.pos_of_ne_zero hk))
  rw [decimalUnitsAt]
  generalize 1074 = finest
  exact Nat.mul_pos hunits (pow_pos_of_pos (by decide) finest)

/-- The first place is that of the first digit that is not zero. -/
theorem pow_firstPlace_le (hk : k ≠ 0) : 10 ^ firstPlace k ≤ decimalUnitsAt k := by
  by_contra hlt
  rw [not_le] at hlt
  have hpos := decimalUnitsAt_pos hk
  rcases Nat.eq_zero_or_pos (firstPlace k) with hzero | hplace
  · rw [hzero, pow_zero] at hlt
    omega
  · rw [← Nat.length_toDigits_le_iff (by decide) hplace, firstPlace] at hlt
    rw [firstPlace] at hplace
    omega

/-- A decimal of few digits lies on one side of the two points. -/
theorem value_side (hk : k ≠ 0) (hn : HasDigits d.digits n) (hg : g ≤ firstPlace k)
    (hfew : n + g ≤ firstPlace k + 1) :
    d.value ≤ (pointDecimal (gridBelow k g)).value ∨
      (pointDecimal (gridAbove k g)).value ≤ d.value := by
  rw [Decimal.value_le_iff, Decimal.value_le_iff]
  exact side_of_hasDigits hn (pow_firstPlace_le hk) hg hfew

theorem value_gridBelow_le (k g : ℕ) : (pointDecimal (gridBelow k g)).value ≤ valueAt k := by
  rw [← value_pointDecimal_decimalUnitsAt, value_pointDecimal_le_iff]
  exact gridBelow_le k g

theorem lt_value_gridAbove (k g : ℕ) : valueAt k < (pointDecimal (gridAbove k g)).value := by
  rw [← value_pointDecimal_decimalUnitsAt, ← not_le, value_pointDecimal_le_iff, not_le]
  exact lt_gridAbove k g

/-- The middle of the two points, in values. -/
theorem middle_le_iff (k g : ℕ) :
    gridBelow k g + gridAbove k g ≤ 2 * decimalUnitsAt k ↔
      (pointDecimal (gridBelow k g)).value + (pointDecimal (gridAbove k g)).value ≤
        2 * valueAt k := by
  rw [← value_pointDecimal_le_iff, two_mul, value_pointDecimal_add, value_pointDecimal_add,
    value_pointDecimal_decimalUnitsAt, two_mul]

/-- **If a decimal of few digits is read as a magnitude, so is a point of the
grid**: the one on its side, which lies between it and the value. -/
theorem readsBack_side (hk : k ≠ 0) (hfinite : k < infinityMagnitude)
    (hd : d.nearest.magnitude = k) (hn : HasDigits d.digits n) (hg : g ≤ firstPlace k)
    (hfew : n + g ≤ firstPlace k + 1) :
    (readsBack k (gridBelow k g) = true ∧ d.value ≤ (pointDecimal (gridBelow k g)).value) ∨
      (readsBack k (gridAbove k g) = true ∧ (pointDecimal (gridAbove k g)).value ≤ d.value) := by
  have hself : (pointDecimal (decimalUnitsAt k)).nearest.magnitude = k :=
    (readsBack_iff_nearest hfinite).1 (readsBack_shortestPoint k 0)
  have hvalue := value_pointDecimal_decimalUnitsAt k
  have hbelow := value_gridBelow_le k g
  have habove := (lt_value_gridAbove k g).le
  rw [← hvalue] at hbelow habove
  rw [readsBack_iff_nearest hfinite, readsBack_iff_nearest hfinite]
  exact (value_side hk hn hg hfew).imp
    (fun hle => ⟨magnitude_nearest_of_between hd hself hle hbelow, hle⟩)
    (fun hle => ⟨magnitude_nearest_of_between hself hd habove hle, hle⟩)

theorem shortest_eq (k : ℕ) : shortest k = .trimmed (shortestPoint k (firstPlace k)) 1074 := rfl

/-- Trimming the point that was found keeps its value. -/
theorem value_shortest (k : ℕ) :
    (shortest k).value = (pointDecimal (shortestPoint k (firstPlace k))).value := by
  rw [shortest_eq, Decimal.value_trimmed]
  rfl

/-- Trimming takes no significant digit, so the bounds on their number stay. -/
theorem hasDigits_shortest_iff {s : ℕ} :
    HasDigits (shortest k).digits s ↔ HasDigits (shortestPoint k (firstPlace k)) s := by
  have hdigits := Decimal.digits_trimmed (shortestPoint k (firstPlace k)) 1074
  rw [← shortest_eq, Nat.pow_eq] at hdigits
  conv_rhs => rw [← hdigits]
  exact hasDigits_mul_pow_iff.symm

/-- On the grid there are as many digits as places from the first to the
grid. -/
theorem hasDigits_of_gridPoint {point : ℕ} (hg : g ≤ firstPlace k)
    (h : gridPoint? k (10 ^ g) = some point) : HasDigits point (firstPlace k + 1 - g) := by
  have hcount : decimalUnitsAt k / 10 ^ g < 10 ^ (firstPlace k + 1 - g) := by
    rw [Nat.div_lt_iff_lt_mul (ten_pow_pos g), ← pow_add, Nat.sub_add_cancel (by omega)]
    exact decimalUnitsAt_lt k
  rcases gridPoint_eq_some h with ⟨rfl, -⟩ | ⟨rfl, -⟩
  · exact hasDigits_mul_pow_iff.2 (.of_lt hcount)
  · rw [gridAbove, gridBelow, ← Nat.succ_mul, hasDigits_mul_pow_iff]
    exact .of_le (by omega) hcount

theorem shortest_zero : shortest 0 = ⟨0, 0⟩ := by decide +kernel

/-- Only zero is read of a decimal of no digits. -/
theorem pos_of_hasDigits (hk : k ≠ 0) (hd : d.nearest.magnitude = k) (hn : HasDigits d.digits n) :
    0 < n := by
  by_contra hzero
  obtain ⟨m, e, hm, hdigits⟩ := hn
  rw [Nat.eq_zero_of_not_pos hzero, pow_zero, Nat.lt_one_iff] at hm
  rw [hm, Nat.zero_mul] at hdigits
  have hvalue : d.value = 0 := by rw [Decimal.value, hdigits, Nat.cast_zero, zero_div]
  have hbound : (0 : ℚ) ≤ 1 / 2 ^ 1075 := one_div_nonneg.2 (pow_nonneg two_pos.le 1075)
  have hnearest : d.nearest = zero := nearest_eq_zero_iff.2 (hvalue.trans_le hbound)
  rw [hnearest] at hd
  exact hk hd.symm

/-- **No decimal of fewer digits is read as the magnitude.** On the grid next
coarser than the one that is found it would have a point that reads back on
its side. -/
theorem hasDigits_shortest (hfinite : k < infinityMagnitude) (hd : d.nearest.magnitude = k)
    (hn : HasDigits d.digits n) : HasDigits (shortest k).digits n := by
  rcases eq_or_ne k 0 with rfl | hk
  · rw [shortest_zero]
    exact .zero n
  · have hpos := pos_of_hasDigits hk hd hn
    obtain ⟨g, hg, hfound, hcoarser⟩ := exists_grid k (firstPlace k)
    refine hasDigits_shortest_iff.2 ((hasDigits_of_gridPoint hg hfound).mono ?_)
    by_contra hfewer
    have hnone := hcoarser (g + 1) (Nat.lt_succ_self g) (by omega)
    obtain ⟨hbelow, habove⟩ := not_readsBack_of_gridPoint_eq_none hnone
    rcases readsBack_side (g := g + 1) hk hfinite hd hn (by omega) (by omega) with h | h
    · exact hbelow h.1
    · exact habove h.1

/-- **No decimal of as few digits that is read as the magnitude is closer to
its value.** It lies on one side of the two points of the grid that is
found, so the one on this side reads back, and what is found is at least as
close. -/
theorem abs_sub_value_shortest_le (hfinite : k < infinityMagnitude) (hd : d.nearest.magnitude = k)
    (hn : HasDigits d.digits n) (hleast : ∀ s, HasDigits (shortest k).digits s → n ≤ s) :
    |valueAt k - (shortest k).value| ≤ |valueAt k - d.value| := by
  rcases eq_or_ne k 0 with rfl | hk
  · rw [shortest_zero, valueAt_zero, Decimal.value, Nat.cast_zero, zero_div, sub_zero, abs_zero]
    exact abs_nonneg _
  · obtain ⟨g, hg, hfound, -⟩ := exists_grid k (firstPlace k)
    have hfew := hleast _ (hasDigits_shortest_iff.2 (hasDigits_of_gridPoint hg hfound))
    have hside := readsBack_side hk hfinite hd hn hg (by omega)
    have hbelow := value_gridBelow_le k g
    have habove := lt_value_gridAbove k g
    have hleft := le_abs_self (valueAt k - d.value)
    have hright := neg_le_abs (valueAt k - d.value)
    have hpoint := gridPoint_eq_some hfound
    rw [← not_le, middle_le_iff, not_le] at hpoint
    rw [value_shortest, abs_le]
    rcases hpoint with ⟨hpoint, hnearer⟩ | ⟨hpoint, hnearer⟩ <;> rw [hpoint]
    -- beyond the point that is found, or beyond the other, which is no nearer
    · rcases hside with ⟨-, hle⟩ | ⟨hreads, hle⟩
      · constructor <;> linarith
      · have hmiddle := hnearer hreads
        constructor <;> linarith
    · rcases hside with ⟨hreads, hle⟩ | ⟨-, hle⟩
      · have hmiddle := hnearer hreads
        constructor <;> linarith
      · constructor <;> linarith

/-- A power of ten that divides the value divides the point that is found. -/
theorem pow_dvd_shortestPoint {f : ℕ} (hk : k ≠ 0) (h : 10 ^ f ∣ decimalUnitsAt k) :
    10 ^ f ∣ shortestPoint k (firstPlace k) := by
  have hfirst : f ≤ firstPlace k := by
    have hlt := (Nat.le_of_dvd (decimalUnitsAt_pos hk) h).trans_lt (decimalUnitsAt_lt k)
    exact Nat.lt_succ_iff.1 ((Nat.pow_lt_pow_iff_right (by decide)).1 hlt)
  -- the value is a point of this grid and reads back, so no finer one is needed
  have hself : gridBelow k f = decimalUnitsAt k := Nat.div_mul_cancel h
  obtain ⟨g, hg, hfound, hcoarser⟩ := exists_grid k (firstPlace k)
  have hle : f ≤ g := by
    by_contra hlt
    have hnone := hcoarser f (Nat.not_le.1 hlt) hfirst
    have hreads := (not_readsBack_of_gridPoint_eq_none hnone).1
    rw [hself] at hreads
    exact hreads (readsBack_shortestPoint k 0)
  have hbelow : 10 ^ g ∣ gridBelow k g := Dvd.intro_left _ rfl
  refine (Nat.pow_dvd_pow 10 hle).trans ?_
  rcases gridPoint_eq_some hfound with ⟨hpoint, -⟩ | ⟨hpoint, -⟩
  · rw [hpoint]
    exact hbelow
  · rw [hpoint]
    exact Nat.dvd_add hbelow (dvd_refl _)

/-- **A whole number is written without places.** -/
theorem places_shortest_of_whole {m : ℕ} (h : valueAt k = m) : (shortest k).places = 0 := by
  rcases eq_or_ne k 0 with rfl | hk
  · rw [shortest_zero]
  · rw [shortest_eq]
    apply Decimal.places_trimmed_of_dvd
    apply pow_dvd_shortestPoint hk
    rw [← value_pointDecimal_decimalUnitsAt, pointDecimal, Decimal.value] at h
    generalize 1074 = finest at h ⊢
    have hten : (10 : ℚ) ^ finest ≠ 0 := pow_ne_zero _ (by norm_num)
    rw [div_eq_iff hten] at h
    exact Dvd.intro_left m (by exact_mod_cast h.symm)

end Search

end Double

end LoxFront
