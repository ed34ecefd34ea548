import ExactAlgebra.Proofs.Ages.Script
import ExactAlgebra.Script.Run
import Mathlib.Data.Rat.Lemmas
import Mathlib.Tactic.FieldSimp
import Mathlib.Tactic.Linarith

/-!
# Calculating with fractions

What numbers are worked out to can be said with integers alone.  A fraction is a pair of integers,
in lowest terms or not, and fractions are added, multiplied and so on by the rules that are taught
at school.  A number is the fraction in lowest terms, with the sign in its numerator, and it is
compared as the fraction is.

* `Fraction.apply`: the result of an operator, or the fault if there is none.
* `Num.Reduces`: the number is the fraction in lowest terms.
* `Calculation`: what can be calculated with the methods of numbers.  `Calculation.worth`: by the
  rules for fractions; `Calculation.perform`: step by step, as a script does it.
* `Calculation.perform_works_out`: both come to the same, or fail with the same fault.
* `Num.comparesAs`: numbers are compared as the rational numbers are that they stand for.
* `Calculation.calculates_exactly`: calculations with numbers are exact, and so are comparisons of
  their results.
-/

namespace ExactAlgebra

open Script

/-! ## Fractions -/

/-- A fraction as it is written down, in lowest terms or not. -/
structure Fraction where
  numerator : Int
  denominator : Int

namespace Fraction

def value (x : Fraction) : ℚ := x.numerator / x.denominator

def add (x y : Fraction) : Fraction :=
  ⟨x.numerator * y.denominator + y.numerator * x.denominator, x.denominator * y.denominator⟩

def negate (x : Fraction) : Fraction := ⟨-x.numerator, x.denominator⟩

def subtract (x y : Fraction) : Fraction := x.add y.negate

def multiply (x y : Fraction) : Fraction :=
  ⟨x.numerator * y.numerator, x.denominator * y.denominator⟩

def magnitude (x : Fraction) : Fraction := ⟨|x.numerator|, |x.denominator|⟩

/-- The quotient, by turning the divisor over. -/
def divide (x y : Fraction) : Except Fault Fraction :=
  if y.numerator = 0 then .error (.divisionByZero x.value)
  else .ok (x.multiply ⟨y.denominator, y.numerator⟩)

/-- The power with an integer exponent; a negative exponent turns the base over. -/
def raise (x : Fraction) (k : Int) : Except Fault Fraction :=
  if x.numerator = 0 ∧ k ≤ 0 then .error (.undefinedPower 0 k)
  else if 0 ≤ k then .ok ⟨x.numerator ^ k.natAbs, x.denominator ^ k.natAbs⟩
  else .ok ⟨x.denominator ^ k.natAbs, x.numerator ^ k.natAbs⟩

/-- The integer that the fraction is if the denominator divides the numerator. -/
def whole (x : Fraction) : Int := x.numerator / x.denominator

/-- The result of an operator; an exponent is taken for an integer. -/
def apply (op : Arithmetic) (x y : Fraction) : Except Fault Fraction :=
  match op with
  | .add => .ok (x.add y)
  | .subtract => .ok (x.subtract y)
  | .multiply => .ok (x.multiply y)
  | .divide => x.divide y
  | .power => x.raise y.whole

variable {x y : Fraction}

theorem value_add (hx : x.denominator ≠ 0) (hy : y.denominator ≠ 0) :
    (x.add y).value = x.value + y.value := by
  have hx : (x.denominator : ℚ) ≠ 0 := Int.cast_ne_zero.mpr hx
  have hy : (y.denominator : ℚ) ≠ 0 := Int.cast_ne_zero.mpr hy
  simp only [value, add, Int.cast_add, Int.cast_mul]
  field_simp

theorem value_negate (x : Fraction) : x.negate.value = -x.value := by
  rw [value, negate, Int.cast_neg, neg_div, value]

theorem value_multiply (x y : Fraction) : (x.multiply y).value = x.value * y.value := by
  rw [value, multiply, Int.cast_mul, Int.cast_mul, mul_div_mul_comm, value, value]

theorem value_magnitude (x : Fraction) : x.magnitude.value = |x.value| := by
  rw [value, magnitude, Int.cast_abs, Int.cast_abs, value, abs_div]

theorem value_inverse (y : Fraction) : value ⟨y.denominator, y.numerator⟩ = y.value⁻¹ :=
  (inv_div _ _).symm

theorem value_eq_zero_iff (hx : x.denominator ≠ 0) : x.value = 0 ↔ x.numerator = 0 := by
  rw [value, div_eq_zero_iff, Int.cast_eq_zero, Int.cast_eq_zero, or_iff_left hx]

/-- A power is undefined for the base zero and an exponent that is not positive, and only then. -/
theorem raise_cases (hx : x.denominator ≠ 0) (k : Int) :
    x.numerator = 0 ∧ k ≤ 0 ∧ x.raise k = .error (.undefinedPower 0 k) ∨
      ¬ (x.numerator = 0 ∧ k ≤ 0) ∧
        ∃ z, x.raise k = .ok z ∧ z.denominator ≠ 0 ∧ z.value = x.value ^ k := by
  by_cases h : x.numerator = 0 ∧ k ≤ 0
  · exact .inl ⟨h.1, h.2, if_pos h⟩
  · refine .inr ⟨h, ?_⟩
    rw [raise, if_neg h]
    by_cases hk : 0 ≤ k
    · obtain ⟨n, rfl⟩ := Int.eq_ofNat_of_zero_le hk
      refine ⟨_, if_pos hk, pow_ne_zero _ hx, ?_⟩
      rw [value, value, zpow_natCast, Int.natAbs_natCast, div_pow, Int.cast_pow, Int.cast_pow]
    · obtain ⟨n, rfl⟩ := Int.exists_eq_neg_ofNat (not_le.mp hk).le
      have hnumerator : x.numerator ≠ 0 := fun h0 => h ⟨h0, (not_le.mp hk).le⟩
      refine ⟨_, if_neg hk, pow_ne_zero _ hnumerator, ?_⟩
      rw [value, value, zpow_neg, zpow_natCast, Int.natAbs_neg, Int.natAbs_natCast, ← inv_pow,
        inv_div, div_pow, Int.cast_pow, Int.cast_pow]

/-- A fraction whose denominator divides its numerator is an integer. -/
theorem value_whole (h : x.denominator ∣ x.numerator) : x.value = x.whole := by
  rw [value, whole, Int.cast_div_charZero h]

end Fraction

/-! ## Lowest terms -/

/-- The number is the fraction in lowest terms, with a positive denominator. -/
structure Num.Reduces (n : Num) (x : Fraction) : Prop where
  denominator_ne_zero : x.denominator ≠ 0
  equal : n.numerator * x.denominator = x.numerator * n.denominator
  positive : 0 < n.denominator
  coprime : Int.gcd n.numerator n.denominator = 1
  zero : x.numerator = 0 → n.numerator = 0 ∧ n.denominator = 1

theorem Num.reduces_iff {n : Num} {x : Fraction} :
    n.Reduces x ↔ x.denominator ≠ 0 ∧ n.value = x.value := by
  have hequal (hx : x.denominator ≠ 0) :
      n.value = x.value ↔ n.numerator * x.denominator = x.numerator * n.denominator := by
    rw [Num.value, Ratio.toRat_eq, Fraction.value,
      div_eq_div_iff n.cast_denominator_ne_zero (Int.cast_ne_zero.mpr hx)]
    exact_mod_cast Iff.rfl
  constructor
  · intro h
    exact ⟨h.denominator_ne_zero, (hequal h.denominator_ne_zero).mpr h.equal⟩
  · rintro ⟨hx, hvalue⟩
    refine ⟨hx, (hequal hx).mp hvalue, n.positive, n.coprime, fun h0 => ?_⟩
    have hzero : n.toRatio = 0 :=
      Ratio.toRat_injective (hvalue.trans ((Fraction.value_eq_zero_iff hx).mpr h0))
    rw [hzero]
    exact ⟨rfl, rfl⟩

def Num.IsReduced (r : Except Fault Fraction) (n : Num) : Prop := ∃ x, r = .ok x ∧ n.Reduces x

/-! ## Calculations -/

/-- What can be calculated with numbers by their constructor and their methods. -/
inductive Calculation where
  | fraction (numerator denominator : Int)
  | operator (op : Arithmetic) (a b : Calculation)
  | negate (a : Calculation)
  | reciprocal (a : Calculation)
  | magnitude (a : Calculation)

namespace Calculation

/-- The fraction to which a calculation comes, or the fault with which it fails. -/
def worth : Calculation → Except Fault Fraction
  | fraction p q => if q = 0 then .error (.divisionByZero p) else .ok ⟨p, q⟩
  | operator op a b => do
    let x ← a.worth
    x.apply op (← b.worth)
  | negate a => return (← a.worth).negate
  | reciprocal a => do Fraction.divide ⟨1, 1⟩ (← a.worth)
  | magnitude a => return (← a.worth).magnitude

def IntegerPowers : Calculation → Prop
  | fraction _ _ => True
  | operator op a b => a.IntegerPowers ∧ b.IntegerPowers ∧
      (op = .power → ∀ y, b.worth = .ok y → y.denominator ∣ y.numerator)
  | negate a | reciprocal a | magnitude a => a.IntegerPowers

/-- The steps of a script that carry the calculation out. -/
def perform : Calculation → Script.Run Value
  | fraction p q => Step.perform (.rational [.int p, .int q])
  | operator op a b => do
    let v ← a.perform
    Step.perform (.call v (some (.arithmetic op)) [← b.perform])
  | negate a => do Step.perform (.call (← a.perform) (some .negate) [])
  | reciprocal a => do Step.perform (.call (← a.perform) (some .reciprocal) [])
  | magnitude a => do Step.perform (.unary .magnitude (← a.perform))

end Calculation

namespace Script

/-- The outcome is the fraction in lowest terms, or both are the same fault. -/
def ReducedOutcome : Except ExactAlgebra.Fault Fraction → Except Fault (Value × Supply) → Prop
  | .ok x, .ok (v, _) => ∃ n, v = .ofNum n ∧ n.Reduces x
  | .error e, .error f => f = .build e
  | _, _ => False

/-- Whatever has been built before, the operation returns the fraction in lowest terms, or fails
with the same fault. -/
def WorksOut (m : Run Value) (r : Except ExactAlgebra.Fault Fraction) : Prop :=
  ∀ s, ReducedOutcome r (m s)

namespace WorksOut

theorem bind {m : Run Value} {r : Except ExactAlgebra.Fault Fraction} {f : Value → Run Value}
    {g : Fraction → Except ExactAlgebra.Fault Fraction} (h : WorksOut m r)
    (hf : ∀ n x, r = .ok x → n.Reduces x → WorksOut (f (.ofNum n)) (g x)) :
    WorksOut (m >>= f) (r >>= g) := by
  intro s
  have hs := h s
  rw [run_bind]
  rcases r with e | x <;> rcases hm : m s with e' | ⟨v, t⟩ <;> rw [hm] at hs
  · exact hs
  · exact hs.elim
  · exact hs.elim
  · obtain ⟨n, rfl, hn⟩ := hs
    exact hf n x rfl hn t

/-- What is worked out without a fault is a number. -/
theorem of_ok {m : Run Value} {r : Except ExactAlgebra.Fault Fraction} {x : Fraction}
    (h : WorksOut m r) (hx : r = .ok x) (s : Supply) :
    ∃ n t, m s = .ok (.ofNum n, t) ∧ n.Reduces x := by
  have hs := h s
  rw [hx] at hs
  rcases hm : m s with e | ⟨v, t⟩ <;> rw [hm] at hs
  · exact hs.elim
  · obtain ⟨n, rfl, hn⟩ := hs
    exact ⟨n, t, rfl, hn⟩

/-- A construction is worked out if what it returns stands for a number. -/
theorem of_build {α : Type} {m : Build α} {r : Except ExactAlgebra.Fault Fraction} {f : α → Value}
    (h : m.Ensures (fun a => ∃ n, f a = .ofNum n ∧ Num.IsReduced r n) (r = .error ·)) :
    WorksOut (do return f (← build m)) r := by
  intro s
  have hs := h s
  rw [run_bind, build]
  rcases hm : m s with ⟨e | a, t⟩ <;> rw [hm] at hs
  · obtain rfl := hs
    rfl
  · obtain ⟨n, hn, x, rfl, hx⟩ := hs
    exact ⟨n, hn, hx⟩

theorem of_num {m : Build Num} {r : Except ExactAlgebra.Fault Fraction}
    (h : m.Ensures (Num.IsReduced r) (r = .error ·)) :
    WorksOut (do return .ofNum (← build m)) r :=
  .of_build (h.imp fun n hn => ⟨n, rfl, hn⟩)

theorem of_expr {m : Build Expr} {r : Except ExactAlgebra.Fault Fraction}
    (h : m.Ensures (fun e => ∃ n, e = .num n ∧ Num.IsReduced r n) (r = .error ·)) :
    WorksOut (do return .expr (← build m)) r :=
  .of_build (h.imp fun _ ⟨n, he, hn⟩ => ⟨n, congrArg Value.expr he, hn⟩)

end WorksOut

end Script

/-! ### Single operations -/

section Operations

variable {n m : Num} {x y : Fraction}

/-- A number is built with the value of a fraction. -/
theorem Num.new_reduced {r : Ratio} {F : Fault → Prop} (hx : x.denominator ≠ 0)
    (h : r.toRat = x.value) : (new r).Ensures (IsReduced (.ok x)) F :=
  (new_ensures r).imp fun _ hn => ⟨x, rfl, reduces_iff.mpr ⟨hx, hn.trans h⟩⟩

theorem Num.ofFraction_reduced (p q : Int) :
    (ofFraction p q).Ensures (IsReduced (Calculation.fraction p q).worth)
      ((Calculation.fraction p q).worth = .error ·) := by
  rw [Calculation.worth, ofFraction]
  split
  next => exact .throw rfl
  next hq => exact new_reduced hq (Ratio.toRat_reduce p q hq)

namespace Num.Reduces

variable {F : Fault → Prop}

theorem value_eq (hn : n.Reduces x) : n.value = x.value := (reduces_iff.mp hn).2

theorem isZero_iff (hn : n.Reduces x) : n.isZero = true ↔ x.numerator = 0 := by
  rw [← Fraction.value_eq_zero_iff hn.denominator_ne_zero, ← hn.value_eq]
  exact Num.isZero_iff

theorem add (hn : n.Reduces x) (hm : m.Reduces y) :
    (n.add m).Ensures (IsReduced (.ok (x.add y))) F := by
  refine new_reduced (mul_ne_zero hn.denominator_ne_zero hm.denominator_ne_zero) ?_
  rw [Ratio.toRat_add, Fraction.value_add hn.denominator_ne_zero hm.denominator_ne_zero,
    ← hn.value_eq, ← hm.value_eq]
  rfl

theorem subtract (hn : n.Reduces x) (hm : m.Reduces y) :
    (n.subtract m).Ensures (IsReduced (.ok (x.subtract y))) F := by
  refine new_reduced (mul_ne_zero hn.denominator_ne_zero hm.denominator_ne_zero) ?_
  rw [Ratio.toRat_subtract, Fraction.subtract,
    Fraction.value_add hn.denominator_ne_zero (y := y.negate) hm.denominator_ne_zero,
    Fraction.value_negate, ← hn.value_eq, ← hm.value_eq, ← sub_eq_add_neg]
  rfl

theorem multiply (hn : n.Reduces x) (hm : m.Reduces y) :
    (n.multiply m).Ensures (IsReduced (.ok (x.multiply y))) F := by
  refine new_reduced (mul_ne_zero hn.denominator_ne_zero hm.denominator_ne_zero) ?_
  rw [Ratio.toRat_multiply, Fraction.value_multiply, ← hn.value_eq, ← hm.value_eq]
  rfl

theorem negate (hn : n.Reduces x) : n.negate.Ensures (IsReduced (.ok x.negate)) F :=
  new_reduced hn.denominator_ne_zero (by
    rw [Ratio.toRat_negate, Fraction.value_negate, ← hn.value_eq]
    rfl)

theorem magnitude (hn : n.Reduces x) : n.magnitude.Ensures (IsReduced (.ok x.magnitude)) F := by
  have hx : x.magnitude.denominator ≠ 0 := abs_ne_zero.mpr hn.denominator_ne_zero
  refine .ite (fun hneg => new_reduced hx ?_)
    fun hneg => .pure ⟨_, rfl, reduces_iff.mpr ⟨hx, ?_⟩⟩
  · rw [Ratio.toRat_negate, Fraction.value_magnitude, ← hn.value_eq,
      abs_of_neg (Num.isNegative_iff.mp hneg)]
    rfl
  · rw [Fraction.value_magnitude, ← hn.value_eq, abs_of_nonneg]
    exact not_lt.mp (mt Num.isNegative_iff.mpr hneg)

theorem divide (hn : n.Reduces x) (hm : m.Reduces y) :
    (n.divide m).Ensures (IsReduced (x.divide y)) (x.divide y = .error ·) := by
  have hzero : m.numerator = 0 ↔ y.numerator = 0 :=
    Num.isZero_iff_numerator.symm.trans hm.isZero_iff
  rw [Fraction.divide, Num.divide]
  split
  next h0 => exact .throw (by rw [if_pos (hzero.mp h0), hn.value_eq])
  next h0 =>
    have hy : y.numerator ≠ 0 := mt hzero.mpr h0
    rw [if_neg hy]
    refine new_reduced (mul_ne_zero hn.denominator_ne_zero hy) ?_
    rw [Ratio.toRat_divide, Fraction.value_multiply, Fraction.value_inverse, ← hn.value_eq,
      ← hm.value_eq, ← div_eq_mul_inv]
    rfl

theorem one : Num.one.Reduces ⟨1, 1⟩ :=
  reduces_iff.mpr ⟨one_ne_zero, by rw [Fraction.value, Int.cast_one, div_one]; rfl⟩

/-- The reciprocal is one divided by the number. -/
theorem reciprocal (hn : n.Reduces x) :
    n.reciprocal.Ensures (IsReduced (Fraction.divide ⟨1, 1⟩ x))
      (Fraction.divide ⟨1, 1⟩ x = .error ·) := by
  have h := one.divide hn
  rwa [Num.divide_eq, show Num.one.value = 1 from rfl, one_div, ← Num.reciprocal_eq] at h

/-- A power is worked out if its exponent is an integer. -/
theorem toPower (hn : n.Reduces x) (hm : m.Reduces y) (hy : y.denominator ∣ y.numerator) :
    (n.toPower m).Ensures (fun e => ∃ k, e = .num k ∧ IsReduced (x.raise y.whole) k)
      (x.raise y.whole = .error ·) := by
  have hexponent : m.value = y.whole := by rw [hm.value_eq, Fraction.value_whole hy]
  rcases Fraction.raise_cases hn.denominator_ne_zero y.whole with
    ⟨h0, hk, hraise⟩ | ⟨h0, z, hraise, hz, hvalue⟩
  · have hzero : n.value = 0 := Num.isZero_iff.mp (hn.isZero_iff.mpr h0)
    have hone : ¬ n.isOne = true := fun h =>
      zero_ne_one (hzero.symm.trans (Num.isOne_iff.mp h))
    have hpositive : ¬ 0 < m.value := by rw [hexponent, Int.cast_pos]; omega
    rw [Num.toPower_eq, if_neg hone, if_pos (hn.isZero_iff.mpr h0), if_neg hpositive, hraise, hzero,
      hexponent]
    exact .throw rfl
  · rw [hraise, Num.toPower_eq]
    rw [← hn.value_eq] at hvalue
    refine .ite (fun h1 => .pure ⟨.one, rfl, z, rfl, reduces_iff.mpr ⟨hz, ?_⟩⟩) fun h1 =>
      .ite (fun hzero => ?_) fun hzero => .ite (fun hinteger => ?_) fun hinteger => ?_
    · rw [hvalue, Num.isOne_iff.mp h1, one_zpow]
      rfl
    · have hk : 0 < y.whole := not_le.mp fun hk => h0 ⟨hn.isZero_iff.mp hzero, hk⟩
      have hpositive : 0 < m.value := by rw [hexponent, Int.cast_pos]; exact hk
      rw [if_pos hpositive]
      refine .pure ⟨.zero, rfl, z, rfl, reduces_iff.mpr ⟨hz, ?_⟩⟩
      rw [hvalue, Num.isZero_iff.mp hzero, zero_zpow _ hk.ne']
      rfl
    · refine (Num.integerPower_ensures n m).bind fun k hk => .pure ⟨k, rfl, z, rfl, ?_⟩
      rw [hexponent, Rat.num_intCast] at hk
      exact reduces_iff.mpr ⟨hz, hk.trans hvalue.symm⟩
    · refine absurd (Num.isInteger_iff.mpr ?_) hinteger
      rw [hexponent, Rat.den_intCast]

/-- Any operator is worked out. -/
theorem apply (op : Arithmetic) (hn : n.Reduces x) (hm : m.Reduces y)
    (hy : op = .power → y.denominator ∣ y.numerator) :
    (n.apply op m).Ensures (fun e => ∃ k, e = .num k ∧ IsReduced (x.apply op y) k)
      (x.apply op y = .error ·) := by
  cases op with
  | add => exact (hn.add hm).bind fun k hk => .pure ⟨k, rfl, hk⟩
  | subtract => exact (hn.subtract hm).bind fun k hk => .pure ⟨k, rfl, hk⟩
  | multiply => exact (hn.multiply hm).bind fun k hk => .pure ⟨k, rfl, hk⟩
  | divide => exact (hn.divide hm).bind fun k hk => .pure ⟨k, rfl, hk⟩
  | power => exact hn.toPower hm (hy rfl)

end Num.Reduces

end Operations

/-! ### Calculations of any length -/

namespace Calculation

/-- A calculation whose powers have integer exponents comes to the fraction in lowest terms, or
fails with the fault of the first operation that has no result. -/
theorem perform_works_out (a : Calculation) (h : a.IntegerPowers) : WorksOut a.perform a.worth := by
  induction a with
  | fraction p q => exact .of_num (Num.ofFraction_reduced p q)
  | operator op a b iha ihb =>
    obtain ⟨ha, hb, hpower⟩ := h
    refine (iha ha).bind fun n x _ hn => (ihb hb).bind fun m y hy hm => ?_
    have happly := hn.apply op hm fun hop => hpower hop y hy
    cases op <;> exact .of_expr happly
  | negate a ih => exact (ih h).bind fun n x _ hn => .of_num hn.negate
  | reciprocal a ih =>
    exact (ih h).bind fun n x _ hn => .of_expr (hn.reciprocal.bind fun k hk => .pure ⟨k, rfl, hk⟩)
  | magnitude a ih => exact (ih h).bind fun n x _ hn => .of_num hn.magnitude

end Calculation

/-! ## Comparisons -/

/-- What a comparison says about two rational numbers. -/
def Script.Relation.Relates (p q : ℚ) : Relation → Prop
  | .eq => p = q
  | .ne => p ≠ q
  | .lt => p < q
  | .le => p ≤ q
  | .gt => p > q
  | .ge => p ≥ q

/-- The numbers are compared as two rational numbers are, both by the operators and by their
parts. -/
structure Num.ComparesAs (n m : Num) (p q : ℚ) : Prop where
  relates : ∀ r s, ∃ c, Script.compare r (.ofNum n) (.ofNum m) s = .ok (c, s) ∧
    (c = true ↔ r.Relates p q)
  parts : n.numerator = m.numerator ∧ n.denominator = m.denominator ↔ p = q
  exactly_one : ∀ s, ∃! r, r ∈ [Relation.lt, .eq, .gt] ∧
    Script.compare r (.ofNum n) (.ofNum m) s = .ok (true, s)

/-- If less and equal are those of rational numbers, then so are the other comparisons. -/
theorem Ordered.holds_iff {α : Type} {o : Ordered α} {value : α → ℚ}
    (hless : ∀ a b, o.less a b = true ↔ value a < value b)
    (hequal : ∀ a b, o.equal a b = true ↔ value a = value b) (r : Relation) (a b : α) :
    o.holds r a b = true ↔ r.Relates (value a) (value b) := by
  have hle : o.lessOrEqual a b = true ↔ value a ≤ value b := by
    rw [lessOrEqual, Bool.or_eq_true, hless, hequal, le_iff_lt_or_eq]
  cases r with
  | eq => exact hequal a b
  | ne => exact Bool.not_eq_true' _ ▸ Bool.eq_false_iff.trans (not_congr (hequal a b))
  | lt => exact hless a b
  | le => exact hle
  | gt => exact Bool.not_eq_true' _ ▸ Bool.eq_false_iff.trans ((not_congr hle).trans not_le)
  | ge => exact Bool.not_eq_true' _ ▸ Bool.eq_false_iff.trans ((not_congr (hless a b)).trans not_lt)

theorem Ratio.ordered_holds_iff (r : Relation) (a b : Ratio) :
    Ratio.ordered.holds r a b = true ↔ r.Relates a.toRat b.toRat :=
  Ordered.holds_iff (fun _ _ => less_iff) (fun _ _ => equals_iff) r a b

namespace Script

/-- No two of less, equal and greater hold at once. -/
theorem Relation.exclusive {p q : ℚ} {r r' : Relation} (hr : r ∈ [Relation.lt, .eq, .gt])
    (hr' : r' ∈ [Relation.lt, .eq, .gt]) (h : r.Relates p q) (h' : r'.Relates p q) : r = r' := by
  simp only [List.mem_cons, List.not_mem_nil, or_false] at hr hr'
  rcases hr with rfl | rfl | rfl <;> rcases hr' with rfl | rfl | rfl <;>
    simp only [Relates] at h h' <;> first | rfl | exact absurd h (by linarith)

theorem Relation.exactly_one (p q : ℚ) : ∃! r, r ∈ [Relation.lt, .eq, .gt] ∧ r.Relates p q := by
  have hsome : ∃ r ∈ [Relation.lt, .eq, .gt], r.Relates p q := by
    rcases lt_trichotomy p q with h | h | h
    · exact ⟨.lt, by decide, h⟩
    · exact ⟨.eq, by decide, h⟩
    · exact ⟨.gt, by decide, h⟩
  obtain ⟨r, hr, h⟩ := hsome
  exact ⟨r, ⟨hr, h⟩, fun r' h' => exclusive h'.1 hr h'.2 h⟩

/-- Numbers are compared by their stored pairs. -/
theorem compare_ofNum (n m : Num) (r : Relation) :
    Script.compare r (.ofNum n) (.ofNum m) = return Ratio.ordered.holds r n.toRatio m.toRatio := by
  cases r with
  | eq | ne => rw [Script.compare, Value.ofNum, Value.ofNum, Value.equal]; rfl
  | lt | le | gt | ge => rfl

end Script

theorem Num.comparesAs (n m : Num) : n.ComparesAs m n.value m.value where
  relates r s := ⟨_, congrFun (Script.compare_ofNum n m r) s, Ratio.ordered_holds_iff r _ _⟩
  parts := by
    rw [← Num.beq_iff]
    change _ ↔ (n.numerator == m.numerator && n.denominator == m.denominator) = true
    rw [Bool.and_eq_true, beq_iff_eq, beq_iff_eq]
  exactly_one s := by
    have hholds (r : Relation) : Script.compare r (.ofNum n) (.ofNum m) s = .ok (true, s) ↔
        r.Relates n.value m.value := by
      refine Iff.trans ?_ (Ratio.ordered_holds_iff r _ _)
      rw [Script.compare_ofNum]
      exact ⟨fun h => (Prod.mk.inj (Except.ok.inj h)).1, fun h => by rw [h]; rfl⟩
    simpa only [hholds] using Relation.exactly_one n.value m.value

/-! ## Calculating and comparing -/

namespace Calculation

/-- **Calculations with numbers are exact.**  Whatever has been built before, a calculation whose
powers have integer exponents returns the fraction that the rules for fractions give, in lowest
terms and with a positive denominator, zero as `0/1`, or it fails with the fault that they give: a
division by zero if a divisor is zero, an undefined power if zero is raised to an exponent that is
not positive.  Two results are compared, by their parts or by any of the operators, as the rational
numbers are that they stand for, so that they are equal or one of them is less than the other, and
only one of these. -/
theorem calculates_exactly (a b : Calculation) (ha : a.IntegerPowers) (hb : b.IntegerPowers)
    (s : Supply) :
    ReducedOutcome a.worth (a.perform s) ∧
      ∀ x y, a.worth = .ok x → b.worth = .ok y → ∃ n m t u,
        a.perform s = .ok (.ofNum n, t) ∧ n.Reduces x ∧
        b.perform t = .ok (.ofNum m, u) ∧ m.Reduces y ∧ n.ComparesAs m x.value y.value := by
  refine ⟨perform_works_out a ha s, fun x y hx hy => ?_⟩
  obtain ⟨n, t, hn, hnx⟩ := (perform_works_out a ha).of_ok hx s
  obtain ⟨m, u, hm, hmy⟩ := (perform_works_out b hb).of_ok hy t
  refine ⟨n, m, t, u, hn, hnx, hm, hmy, ?_⟩
  rw [← hnx.value_eq, ← hmy.value_eq]
  exact n.comparesAs m

theorem calculates_exactly_minus_twenty_four :
    let a : Calculation :=
      .operator .divide (.operator .power (.fraction 2 (-4)) (.fraction (-6) 2)) (.fraction 1 3)
    let b : Calculation := .reciprocal (.fraction (-1) 24)
    a.IntegerPowers ∧ b.IntegerPowers ∧ ∃ n m t u,
      a.perform .initial = .ok (.ofNum n, t) ∧ n.Reduces ⟨-192, 8⟩ ∧
      b.perform t = .ok (.ofNum m, u) ∧ m.Reduces ⟨24, -1⟩ ∧
      n.ComparesAs m (Fraction.value ⟨-192, 8⟩) (Fraction.value ⟨24, -1⟩) := by
  intro a b
  have ha : a.IntegerPowers := by
    refine ⟨⟨trivial, trivial, fun _ y hy => ?_⟩, trivial, nofun⟩
    obtain rfl := Except.ok.inj hy
    decide
  exact ⟨ha, trivial, (calculates_exactly a b ha trivial .initial).2 _ _ rfl rfl⟩

end Calculation

end ExactAlgebra
