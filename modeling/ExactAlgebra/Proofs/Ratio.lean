import ExactAlgebra.Expr.Power
import Mathlib.Algebra.Order.Field.Basic
import Mathlib.Algebra.Order.Field.Rat
import Mathlib.Data.Int.Cast.Field
import Mathlib.Data.Int.CharZero
import Mathlib.Data.Rat.Lemmas

/-!
# The rational number of a fraction

A fraction in lowest terms is told by its rational number, arithmetic on the stored pairs is
arithmetic of rational numbers, and the pairs are compared as the rational numbers are.  Whatever is
proved about numbers elsewhere goes by their values.

* `Ratio.toRat_reduce`: moving the sign and dividing by the greatest common divisor keep the
  quotient.
* `Ratio.toRat_add` and so on: the operations.
* `Ratio.equals_iff`, `Ratio.less_iff`: the comparisons.
* `Num.isZero_iff` and so on: the tests of numbers by their values.
* `Num.toPower_eq`: the recursion of a power with an integer exponent ends after one turn.
-/

namespace ExactAlgebra

namespace Ratio

/-! ## Reduction -/

theorem signed_div (p q : ℤ) : ((signed p q).1 : ℚ) / (signed p q).2 = p / q := by
  unfold signed
  split
  · rw [Int.cast_neg, Int.cast_neg, neg_div_neg_eq]
  · rfl

theorem toRat_eq (r : Ratio) : r.toRat = r.numerator / r.denominator := by
  have hden : (r.denominator.toNat : ℤ) = r.denominator := Int.toNat_of_nonneg r.positive.le
  rw [← hden, Int.cast_natCast]
  exact (Rat.num_div_den r.toRat).symm

theorem toRat_lowest (p q : ℤ) (h : 0 < q) : (lowest p q h).toRat = p / q := by
  have hgcd : ((Int.gcd p q : ℤ) : ℚ) ≠ 0 :=
    Int.cast_ne_zero.mpr (Int.natCast_ne_zero.mpr (Int.gcd_pos_of_ne_zero_right _ h.ne').ne')
  rw [toRat_eq, lowest, Int.cast_div (Int.gcd_dvd_left ..) hgcd,
    Int.cast_div (Int.gcd_dvd_right ..) hgcd, div_div_div_cancel_right₀ hgcd]

@[simp] theorem toRat_reduce (p q : ℤ) (h : q ≠ 0) : (reduce p q h).toRat = p / q := by
  rw [reduce, toRat_lowest, signed_div]

theorem toRat_injective : Function.Injective toRat := by
  intro r s h
  have hnum : r.numerator = s.numerator := congrArg Rat.num h
  have hden : r.denominator.toNat = s.denominator.toNat := congrArg Rat.den h
  have hr := r.positive
  have hs := s.positive
  have hden : r.denominator = s.denominator := by omega
  cases r
  cases s
  cases hnum
  cases hden
  rfl

@[simp] theorem toRat_ofRat (q : ℚ) : (ofRat q).toRat = q := Rat.ext rfl (Int.toNat_natCast q.den)

@[simp] theorem ofRat_toRat (r : Ratio) : ofRat r.toRat = r := toRat_injective (toRat_ofRat _)

/-! ## Arithmetic -/

theorem numerator_eq_zero_iff {r : Ratio} : r.numerator = 0 ↔ r.toRat = 0 :=
  Rat.num_eq_zero (q := r.toRat)

theorem cast_denominator_ne_zero (r : Ratio) : (r.denominator : ℚ) ≠ 0 :=
  Int.cast_ne_zero.mpr r.denominator_ne_zero

@[simp] theorem toRat_ofInt (n : ℤ) : (ofInt n).toRat = n := rfl

@[simp] theorem toRat_ofNat (n : ℕ) :
    toRat (no_index (OfNat.ofNat n)) = (OfNat.ofNat n : ℕ) := rfl

@[simp] theorem toRat_add (r s : Ratio) : (r.add s).toRat = r.toRat + s.toRat := by
  have hr := r.cast_denominator_ne_zero
  have hs := s.cast_denominator_ne_zero
  rw [add, toRat_reduce, toRat_eq r, toRat_eq s, div_add_div _ _ hr hs]
  push_cast
  rfl

@[simp] theorem toRat_subtract (r s : Ratio) : (r.subtract s).toRat = r.toRat - s.toRat := by
  have hr := r.cast_denominator_ne_zero
  have hs := s.cast_denominator_ne_zero
  rw [subtract, toRat_reduce, toRat_eq r, toRat_eq s, div_sub_div _ _ hr hs]
  push_cast
  rfl

@[simp] theorem toRat_multiply (r s : Ratio) : (r.multiply s).toRat = r.toRat * s.toRat := by
  rw [multiply, toRat_reduce, toRat_eq r, toRat_eq s, div_mul_div_comm]
  push_cast
  rfl

@[simp] theorem toRat_divide (r s : Ratio) (h : s.numerator ≠ 0) :
    (r.divide s h).toRat = r.toRat / s.toRat := by
  rw [divide, toRat_reduce, toRat_eq r, toRat_eq s, div_div_div_eq]
  push_cast
  rfl

@[simp] theorem toRat_negate (r : Ratio) : r.negate.toRat = -r.toRat := by
  rw [negate, toRat_reduce, toRat_eq r, Int.cast_neg, neg_div]

@[simp] theorem toRat_neg (r : Ratio) : (-r).toRat = -r.toRat := toRat_negate r

@[simp] theorem toRat_reciprocal (r : Ratio) (h : r.numerator ≠ 0) :
    (r.reciprocal h).toRat = r.toRat⁻¹ := by
  rw [reciprocal, toRat_reduce, toRat_eq r, inv_div]

@[simp] theorem toRat_power (r : Ratio) (k : ℕ) : (r.power k).toRat = r.toRat ^ k := by
  rw [power, toRat_reduce, toRat_eq r, div_pow, ← Int.cast_pow, ← Int.cast_pow]
  rfl

theorem signum_pos_iff {r : Ratio} : 0 < r.signum ↔ 0 < r.toRat := by
  rw [signum, ← Rat.num_pos, show r.toRat.num = r.numerator from rfl]
  split_ifs <;> omega

theorem numerator_neg_iff {r : Ratio} : r.numerator < 0 ↔ r.toRat < 0 := Rat.num_neg (a := r.toRat)

/-! ## Comparison -/

theorem equals_iff {r s : Ratio} : r.equals s = true ↔ r.toRat = s.toRat := by
  rw [equals, Bool.and_eq_true, beq_iff_eq, beq_iff_eq, toRat_injective.eq_iff]
  constructor
  · rintro ⟨hnum, hden⟩
    cases r
    cases s
    cases hnum
    cases hden
    rfl
  · rintro rfl
    exact ⟨rfl, rfl⟩

theorem less_iff {r s : Ratio} : r.less s = true ↔ r.toRat < s.toRat := by
  have hr : (0 : ℚ) < r.denominator := Int.cast_pos.mpr r.positive
  have hs : (0 : ℚ) < s.denominator := Int.cast_pos.mpr s.positive
  rw [less, decide_eq_true_iff, toRat_eq, toRat_eq, div_lt_div_iff₀ hr hs]
  exact_mod_cast Iff.rfl

end Ratio

namespace Num

variable {n m : Num}

/-! ## Numbers by their values -/

@[simp] theorem value_mk (r : Ratio) (age : ℕ) : value ⟨r, age⟩ = r.toRat := rfl

theorem toRatio_eq (h : n.value = m.value) : n.toRatio = m.toRatio := Ratio.toRat_injective h

@[simp] theorem beq_iff : (n == m) = true ↔ n.value = m.value := Ratio.equals_iff

theorem beq_eq (n m : Num) : (n == m) = (n.value == m.value) := by
  rw [Bool.eq_iff_iff, beq_iff, beq_iff_eq]

theorem isZero_iff_numerator : n.isZero = true ↔ n.numerator = 0 := beq_iff_eq

theorem isZero_iff : n.isZero = true ↔ n.value = 0 :=
  isZero_iff_numerator.trans Ratio.numerator_eq_zero_iff

theorem isOne_iff : n.isOne = true ↔ n.value = 1 := beq_iff

theorem isNegativeOne_iff : n.isNegativeOne = true ↔ n.value = -1 := beq_iff

theorem isNegative_iff : n.isNegative = true ↔ n.value < 0 := by
  rw [isNegative, decide_eq_true_iff]
  exact Ratio.numerator_neg_iff

theorem isNegative_eq (n : Num) : n.isNegative = decide (n.value < 0) := by
  rw [Bool.eq_iff_iff, isNegative_iff, decide_eq_true_iff]

theorem den_value (n : Num) : (n.value.den : ℤ) = n.denominator := Int.toNat_of_nonneg n.positive.le

theorem isInteger_iff : n.isInteger = true ↔ n.value.den = 1 := by
  rw [isInteger, beq_iff_eq, ← den_value]
  exact Nat.cast_eq_one

theorem isZero_congr (h : n.value = m.value) : n.isZero = m.isZero := by
  rw [Bool.eq_iff_iff, isZero_iff, isZero_iff, h]

theorem isOne_congr (h : n.value = m.value) : n.isOne = m.isOne := by
  rw [Bool.eq_iff_iff, isOne_iff, isOne_iff, h]

theorem isInteger_congr (h : n.value = m.value) : n.isInteger = m.isInteger := by
  rw [Bool.eq_iff_iff, isInteger_iff, isInteger_iff, h]

/-! ## Quotients -/

theorem divide_eq (a b : Num) :
    a.divide b =
      if b.isZero then throw (.divisionByZero a.value) else new (.ofRat (a.value / b.value)) := by
  by_cases h : b.numerator = 0
  · rw [divide, dif_pos h, if_pos (isZero_iff_numerator.mpr h)]
  · rw [divide, dif_neg h, if_neg (mt isZero_iff_numerator.mp h),
      ← Ratio.ofRat_toRat (a.toRatio.divide _ h), Ratio.toRat_divide]
    rfl

theorem reciprocal_eq (a : Num) :
    a.reciprocal = if a.isZero then throw (.divisionByZero 1) else new (.ofRat a.value⁻¹) := by
  by_cases h : a.numerator = 0
  · rw [reciprocal, dif_pos h, if_pos (isZero_iff_numerator.mpr h)]
  · rw [reciprocal, dif_neg h, if_neg (mt isZero_iff_numerator.mp h),
      ← Ratio.ofRat_toRat (a.toRatio.reciprocal h), Ratio.toRat_reciprocal]
    rfl

theorem ofFraction_eq (p q : ℤ) :
    ofFraction p q = if q = 0 then throw (.divisionByZero p) else new (.ofRat (p / q)) := by
  by_cases h : q = 0
  · rw [ofFraction, dif_pos h, if_pos h]
  · rw [ofFraction, dif_neg h, if_neg h, ← Ratio.ofRat_toRat (.reduce p q h), Ratio.toRat_reduce]

theorem ofFraction_num_den (q : ℚ) : ofFraction q.num q.den = new (.ofRat q) := by
  rw [ofFraction_eq, if_neg (Int.natCast_ne_zero.mpr q.den_nz), Int.cast_natCast, Rat.num_div_den]

/-! ## Integer powers -/

/-- The power with an integer exponent.  When a negative exponent turns the base over, the inverse
and the new exponent are nodes, too. -/
def integerPower (base exponent : Num) : Build Num :=
  let result := new (.ofRat (base.value ^ exponent.value.num))
  if exponent.isNegative then do
    let _ ← Build.fresh
    let _ ← Build.fresh
    result
  else result

theorem power_eq (base : Num) {k : ℤ} (hk : 0 ≤ k) :
    base.power k.toNat = .ofRat (base.value ^ k) := by
  apply Ratio.toRat_injective
  obtain ⟨n, rfl⟩ := Int.eq_ofNat_of_zero_le hk
  rw [Ratio.toRat_power, Ratio.toRat_ofRat, zpow_natCast]
  rfl

theorem toPower_of_nonneg {base exponent : Num} (h1 : ¬ base.isOne = true)
    (h0 : ¬ base.isZero = true) (hinteger : exponent.isInteger = true)
    (hnonneg : ¬ exponent.numerator < 0) :
    base.toPower exponent =
      do return .num (← new (.ofRat (base.value ^ exponent.value.num))) := by
  rw [toPower, if_neg h1, if_neg h0, if_pos hinteger, if_neg hnonneg,
    power_eq _ (not_lt.mp hnonneg)]
  rfl

/-- The inverse of a base is neither zero nor one if the base is not, and the new exponent is
positive, so that no further turn is made. -/
theorem toPower_of_neg {base exponent : Num} (h1 : ¬ base.isOne = true) (h0 : ¬ base.isZero = true)
    (hinteger : exponent.isInteger = true) (hneg : exponent.numerator < 0) :
    base.toPower exponent = do
      let _ ← Build.fresh
      let _ ← Build.fresh
      return .num (← new (.ofRat (base.value ^ exponent.value.num))) := by
  have hnumerator : ¬ base.numerator = 0 := fun h => h0 (isZero_iff_numerator.mpr h)
  rw [toPower, if_neg h1, if_neg h0, if_pos hinteger, if_pos hneg, reciprocal, dif_neg hnumerator,
    new, bind_assoc]
  refine bind_congr fun age => ?_
  rw [pure_bind]
  refine bind_congr fun age' => ?_
  have hinverse : value ⟨base.toRatio.reciprocal hnumerator, age⟩ = base.value⁻¹ :=
    Ratio.toRat_reciprocal _ hnumerator
  have hexponent : value ⟨-exponent.toRatio, age'⟩ = -exponent.value := Ratio.toRat_neg _
  rw [toPower_of_nonneg, hinverse, hexponent, Rat.num_neg_eq_neg_num, inv_zpow, zpow_neg, inv_inv]
  · rwa [isOne_iff, hinverse, inv_eq_one, ← isOne_iff]
  · rwa [isZero_iff, hinverse, inv_eq_zero, ← isZero_iff]
  · rwa [isInteger_iff, hexponent, Rat.den_neg_eq_den, ← isInteger_iff]
  · rw [Ratio.neg_eq]
    exact not_lt.mpr (Int.neg_nonneg_of_nonpos hneg.le)

theorem toPower_eq (base exponent : Num) :
    base.toPower exponent =
      if base.isOne then return .one
      else if base.isZero then
        if 0 < exponent.value then return .zero
        else throw (.undefinedPower base.value exponent.value)
      else if exponent.isInteger then return .num (← base.integerPower exponent)
      else return .power (← Build.fresh) (.num base) (.num exponent) := by
  by_cases h1 : base.isOne = true
  · rw [toPower, if_pos h1, if_pos h1]
  by_cases h0 : base.isZero = true
  · rw [toPower, if_neg h1, if_neg h1, if_pos h0, if_pos h0]
    exact if_congr Ratio.signum_pos_iff rfl rfl
  by_cases hinteger : exponent.isInteger = true
  · rw [if_neg h1, if_neg h0, if_pos hinteger, integerPower]
    by_cases hneg : exponent.isNegative = true
    · rw [toPower_of_neg h1 h0 hinteger (of_decide_eq_true hneg), if_pos hneg]
      simp only [bind_assoc]
    · rw [toPower_of_nonneg h1 h0 hinteger (mt decide_eq_true hneg), if_neg hneg]
  · rw [toPower, if_neg h1, if_neg h1, if_neg h0, if_neg h0, if_neg hinteger, if_neg hinteger]

end Num

end ExactAlgebra
