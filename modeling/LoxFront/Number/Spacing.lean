import LoxFront.Number.Double
import Mathlib.Tactic.Ring
/-!
# How the doubles are spaced

The values of the magnitudes grow strictly, and from one to the next by a
power of two that the exponent field alone decides (`unitsAt_add_one`). So
between two neighbours lies no third, and every number of units lies from
one magnitude up to the next, which `floorMagnitude` finds
(`unitsAt_floorMagnitude`).
-/

namespace LoxFront

namespace Double

/-- The value of a magnitude, in powers. -/
theorem unitsAt_eq (k : Nat) :
    unitsAt k = if k < 2 ^ 52 then k else (2 ^ 52 + k % 2 ^ 52) * 2 ^ (k / 2 ^ 52 - 1) := rfl

/-- The greatest magnitude at most so many units, in powers. -/
theorem floorMagnitude_eq (units : Nat) :
    floorMagnitude units = (units.log2 - 52) * 2 ^ 52 + units / 2 ^ (units.log2 - 52) := rfl

/-- **The step between neighbours**: the next magnitude's value is greater
by a power of two that the exponent field alone decides. -/
theorem unitsAt_add_one (k : Nat) : unitsAt (k + 1) = unitsAt k + 2 ^ (k / 2 ^ 52 - 1) := by
  rw [unitsAt_eq, unitsAt_eq]
  by_cases below : k < 2 ^ 52
  · rw [if_pos below, Nat.div_eq_of_lt below]
    by_cases h : k + 1 < 2 ^ 52
    · rw [if_pos h, Nat.zero_sub, pow_zero]
    · have top : k + 1 = 2 ^ 52 := by omega
      rw [if_neg h, top]
      omega
  · rw [if_neg below, if_neg (by omega)]
    by_cases full : k % 2 ^ 52 + 1 = 2 ^ 52
    · obtain ⟨e, he⟩ : ∃ e, k / 2 ^ 52 = e + 1 := ⟨k / 2 ^ 52 - 1, by omega⟩
      have div : (k + 1) / 2 ^ 52 = e + 2 := by omega
      have mod : (k + 1) % 2 ^ 52 = 0 := by omega
      have rest : k % 2 ^ 52 = 2 ^ 52 - 1 := by omega
      rw [div, mod, he, rest, show e + 2 - 1 = e + 1 from rfl, Nat.add_sub_cancel, pow_succ]
      omega
    · have div : (k + 1) / 2 ^ 52 = k / 2 ^ 52 := by omega
      have mod : (k + 1) % 2 ^ 52 = k % 2 ^ 52 + 1 := by omega
      rw [div, mod]
      ring

/-- A greater magnitude has a greater value. -/
theorem unitsAt_strictMono : StrictMono unitsAt :=
  strictMono_nat_of_lt_succ fun k => by
    rw [unitsAt_add_one]
    exact Nat.lt_add_of_pos_right (Nat.two_pow_pos _)

/-- **The greatest magnitude at most so many units** is the one whose
value is at most that and whose successor's is more. -/
theorem unitsAt_floorMagnitude (units : Nat) :
    unitsAt (floorMagnitude units) ≤ units ∧ units < unitsAt (floorMagnitude units + 1) := by
  rw [unitsAt_add_one, floorMagnitude_eq]
  by_cases small : units < 2 ^ 53
  · have shift : units.log2 - 52 = 0 := by
      by_cases zero : units = 0
      · rw [zero]; rfl
      · have := (Nat.log2_lt zero).2 small
        omega
    have step : units / 2 ^ 52 - 1 = 0 := by omega
    have value : unitsAt units = units := by
      rw [unitsAt_eq]
      by_cases below : units < 2 ^ 52
      · rw [if_pos below]
      · rw [if_neg below, step, pow_zero]
        omega
    rw [shift, Nat.zero_mul, Nat.zero_add, pow_zero, Nat.div_one, value, step, pow_zero]
    omega
  · have ne : units ≠ 0 := by omega
    have low := Nat.log2_self_le ne
    have high : units < 2 ^ (units.log2 + 1) := Nat.lt_log2_self
    obtain ⟨s, hs⟩ : ∃ s, units.log2 = s + 53 := by
      have := (Nat.le_log2 ne (k := 53)).2 (by omega)
      exact ⟨units.log2 - 53, by omega⟩
    rw [hs, show s + 53 = 52 + (s + 1) by omega, pow_add] at low
    rw [hs, show s + 53 + 1 = 53 + (s + 1) by omega, pow_add] at high
    have lead_ge := (Nat.le_div_iff_mul_le (Nat.two_pow_pos (s + 1))).2 low
    have lead_lt := (Nat.div_lt_iff_lt_mul (Nat.two_pow_pos (s + 1))).2 high
    clear low high
    have whole := Nat.div_add_mod units (2 ^ (s + 1))
    have part := Nat.mod_lt units (Nat.two_pow_pos (s + 1))
    rw [hs, show s + 53 - 52 = s + 1 by omega]
    generalize units / 2 ^ (s + 1) = lead at *
    have exponent : ((s + 1) * 2 ^ 52 + lead) / 2 ^ 52 - 1 = s + 1 := by omega
    have value : unitsAt ((s + 1) * 2 ^ 52 + lead) = 2 ^ (s + 1) * lead := by
      rw [unitsAt_eq, if_neg (by omega), exponent, Nat.mul_comm,
        show 2 ^ 52 + ((s + 1) * 2 ^ 52 + lead) % 2 ^ 52 = lead by omega]
    rw [value, exponent]
    have next := Nat.add_lt_add_left part (2 ^ (s + 1) * lead)
    rw [whole] at next
    exact ⟨Nat.le.intro whole, next⟩

end Double

end LoxFront
