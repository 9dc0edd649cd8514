/-!
# Doubles

The numbers of the language are IEEE 754 binary64 data. One is kept as its
sign bit and its other 63 bits, the magnitude, taken as a number: with the
sign set aside, the order of the magnitudes is the order of the values, the
next magnitude is the next double, and infinity and the NaNs lie above all
finite ones. `Double.unitsAt` gives the value of a magnitude exactly, as a
whole number of the smallest positive double.

Two doubles are told apart bit for bit by `=`; `==` is the comparison of
the standard, under which zero has one value and a NaN none.
-/

namespace LoxFront

/-- What the sign bit is worth, the number of magnitudes: `2 ^ 63`. -/
def Double.signWeight : Nat := 0x8000000000000000

/-- How many magnitudes share an exponent field: `2 ^ 52`. -/
def Double.binade : Nat := 0x10000000000000

/-- A double: the sign bit, and the other 63 bits as a number. -/
@[ext]
structure Double where
  /-- The sign bit. -/
  negative : Bool
  /-- Exponent and fraction field, read as one number. -/
  magnitude : Nat
  /-- There are 63 bits below the sign. -/
  magnitude_lt : magnitude < Double.signWeight
  deriving DecidableEq

namespace Double

/-! ## The 64 bits -/

/-- The double with these bits. -/
def ofBits (bits : UInt64) : Double where
  negative := decide (signWeight ≤ bits.toNat)
  magnitude := bits.toNat % signWeight
  magnitude_lt := Nat.mod_lt _ (by decide)

/-- The bits of a double. -/
def toBits (x : Double) : UInt64 :=
  .ofNat ((if x.negative then signWeight else 0) + x.magnitude)

/-- The bits of a double, read as one number. -/
theorem toNat_toBits (x : Double) :
    x.toBits.toNat = (if x.negative then signWeight else 0) + x.magnitude := by
  have bound := x.magnitude_lt
  rw [toBits, UInt64.toNat_ofNat']
  apply Nat.mod_eq_of_lt
  unfold signWeight at *
  split <;> omega

/-- Nothing of a double is lost in its bits, a NaN's payload included. -/
@[simp] theorem ofBits_toBits (x : Double) : ofBits x.toBits = x := by
  have bound := x.magnitude_lt
  ext
  · change decide (signWeight ≤ x.toBits.toNat) = x.negative
    rw [toNat_toBits]
    cases x.negative with
    | false => exact decide_eq_false (by rw [if_neg Bool.false_ne_true]; omega)
    | true => exact decide_eq_true (by rw [if_pos rfl]; omega)
  · change x.toBits.toNat % signWeight = x.magnitude
    rw [toNat_toBits]
    split
    · rw [Nat.add_mod_left, Nat.mod_eq_of_lt bound]
    · rw [Nat.zero_add, Nat.mod_eq_of_lt bound]

/-- Every pattern of 64 bits is the one of its double. -/
@[simp] theorem toBits_ofBits (bits : UInt64) : (ofBits bits).toBits = bits := by
  have bound := bits.toNat_lt
  apply UInt64.toNat.inj
  rw [toNat_toBits]
  change (if decide (signWeight ≤ bits.toNat) then signWeight else 0) +
    bits.toNat % signWeight = bits.toNat
  by_cases set : signWeight ≤ bits.toNat
  · rw [if_pos (decide_eq_true set)]
    unfold signWeight at *
    omega
  · rw [if_neg (by simpa using set), Nat.zero_add]
    exact Nat.mod_eq_of_lt (Nat.lt_of_not_le set)

/-! ## Kinds of doubles -/

/-- The magnitude of infinity: all bits of the exponent field set, none
of the fraction. -/
def infinityMagnitude : Nat := 2047 * binade

/-- A double is no number when its magnitude lies above infinity's. -/
def isNaN (x : Double) : Bool := decide (infinityMagnitude < x.magnitude)

/-- A double has a finite value when its magnitude lies below infinity's. -/
def isFinite (x : Double) : Bool := decide (x.magnitude < infinityMagnitude)

/-! ## Comparison -/

/-- The standard's comparison: a NaN equals nothing, itself included, the
two zeros are equal, and other doubles are equal when all bits are. -/
def equal (x y : Double) : Bool :=
  !x.isNaN && x.magnitude == y.magnitude && (x.negative == y.negative || x.magnitude == 0)

instance : BEq Double := ⟨equal⟩

/-! ## Exact values

The smallest positive double is `2 ^ (-1074)`. In this unit every finite
double is a whole number: below `2 ^ 52` a magnitude is its own value, and
above, the fraction field with the hidden bit is shifted by one less than
the exponent field. -/

/-- The value of a magnitude in units of `2 ^ (-1074)`. From infinity's
magnitude on it goes on as if the exponents did, so infinity's is
`2 ^ 1024`. -/
def unitsAt (magnitude : Nat) : Nat :=
  if magnitude < binade then magnitude
  else (binade + magnitude % binade) * Nat.pow 2 (magnitude / binade - 1)

/-- The greatest magnitude whose value is at most so many units: the 53
leading bits are kept. -/
def floorMagnitude (units : Nat) : Nat :=
  let shift := units.log2 - 52
  shift * binade + units / Nat.pow 2 shift

end Double

end LoxFront
