import Mathlib.Algebra.BigOperators.Group.List.Basic
import Mathlib.Algebra.Order.Field.Rat
import Mathlib.Data.Option.NAry
import Mathlib.Tactic.NormNum

/-!
# Arithmetic with numbers that may be undefined

An expression need not have a value, so values are rationals that may be missing.  Sums and products
are defined when all their parts are; an inverse is defined for what is not zero; a power is defined
for an integer exponent, except that zero is only raised to positive exponents, and for the bases
one and zero with any exponent, a positive one for zero.

* `power?`: the rational value of a power.
* `power?_add`, `power?_neg`, `power?_mul`, `mul_power?`: the exponent laws, with what they ask for.
-/

namespace ExactAlgebra.Partial

/-! ## Sums and products -/

scoped instance instCommMonoid : CommMonoid (Option ℚ) where
  mul := Option.map₂ (· * ·)
  one := some 1
  mul_assoc _ _ _ := Option.map₂_assoc mul_assoc
  mul_comm _ _ := Option.map₂_comm mul_comm
  one_mul
    | none => rfl
    | some x => congrArg some (one_mul x)
  mul_one
    | none => rfl
    | some x => congrArg some (mul_one x)

scoped instance instZero : Zero (Option ℚ) := ⟨some 0⟩

scoped instance instAdd : Add (Option ℚ) := ⟨Option.map₂ (· + ·)⟩

scoped instance instAddCommMonoid : AddCommMonoid (Option ℚ) where
  add_assoc _ _ _ := Option.map₂_assoc add_assoc
  add_comm _ _ := Option.map₂_comm add_comm
  zero_add
    | none => rfl
    | some x => congrArg some (zero_add x)
  add_zero
    | none => rfl
    | some x => congrArg some (add_zero x)
  nsmul := nsmulRec

variable {a b c : Option ℚ} {x y z p q : ℚ}

theorem one_eq : (1 : Option ℚ) = some 1 := rfl

theorem zero_eq : (0 : Option ℚ) = some 0 := rfl

@[simp] theorem some_mul_some (x y : ℚ) : (some x * some y : Option ℚ) = some (x * y) := rfl

@[simp] theorem none_mul (a : Option ℚ) : none * a = none := rfl

@[simp] theorem mul_none (a : Option ℚ) : a * none = none := by cases a <;> rfl

@[simp] theorem some_add_some (x y : ℚ) : (some x + some y : Option ℚ) = some (x + y) := rfl

@[simp] theorem none_add (a : Option ℚ) : none + a = none := rfl

@[simp] theorem add_none (a : Option ℚ) : a + none = none := by cases a <;> rfl

theorem mul_eq_some : a * b = some z ↔ ∃ x y, a = some x ∧ b = some y ∧ x * y = z := by
  cases a <;> cases b <;> simp

theorem isSome_mul : (a * b).isSome = true ↔ a.isSome = true ∧ b.isSome = true := by
  cases a <;> cases b <;> simp

theorem isSome_add : (a + b).isSome = true ↔ a.isSome = true ∧ b.isSome = true := by
  cases a <;> cases b <;> simp

theorem isSome_prod {l : List (Option ℚ)} :
    l.prod.isSome = true ↔ ∀ a ∈ l, a.isSome = true := by
  induction l with
  | nil => simp [one_eq]
  | cons a l ih => rw [List.prod_cons, isSome_mul, ih, List.forall_mem_cons]

theorem isSome_sum {l : List (Option ℚ)} :
    l.sum.isSome = true ↔ ∀ a ∈ l, a.isSome = true := by
  induction l with
  | nil => simp [zero_eq]
  | cons a l ih => rw [List.sum_cons, isSome_add, ih, List.forall_mem_cons]

theorem some_mul_add (x : ℚ) (a b : Option ℚ) : some x * (a + b) = some x * a + some x * b := by
  cases a <;> cases b <;> simp [mul_add]

/-! ## Inverses -/

/-- The inverse of what is defined and not zero. -/
def inverse (a : Option ℚ) : Option ℚ := a.bind fun x => if x = 0 then none else some x⁻¹

@[simp] theorem inverse_none : inverse none = none := rfl

theorem inverse_some (h : x ≠ 0) : inverse (some x) = some x⁻¹ := by
  rw [inverse, Option.bind_some, if_neg h]

@[simp] theorem inverse_zero : inverse (some 0) = none := rfl

theorem inverse_mul (a b : Option ℚ) : inverse (a * b) = inverse a * inverse b := by
  cases a with
  | none => rfl
  | some x =>
    cases b with
    | none => simp
    | some y =>
      rw [some_mul_some]
      by_cases hx : x = 0
      · subst hx; simp
      · by_cases hy : y = 0
        · subst hy; simp
        · rw [inverse_some hx, inverse_some hy, inverse_some (mul_ne_zero hx hy), mul_inv,
            some_mul_some]

theorem inverse_one : inverse 1 = 1 := by
  rw [one_eq, inverse_some one_ne_zero, inv_one]

/-! ## Powers -/

/-- The rational value of a power, if it has one. -/
def power? (x p : ℚ) : Option ℚ :=
  if x = 1 then some 1
  else if x = 0 then if 0 < p then some 0 else none
  else if p.den = 1 then some (x ^ p.num)
  else none

theorem one_power? (p : ℚ) : power? 1 p = some 1 := if_pos rfl

theorem zero_power? (p : ℚ) : power? 0 p = if 0 < p then some 0 else none := by
  rw [power?, if_neg zero_ne_one, if_pos rfl]

theorem power?_integer (hx : x ≠ 0) (n : ℤ) : power? x n = some (x ^ n) := by
  rw [power?, if_neg hx]
  split
  next h => rw [h, one_zpow]
  next => rw [if_pos (Rat.den_intCast n), Rat.num_intCast]

/-- Apart from the bases one and zero, an exponent is an integer. -/
theorem power?_cases (h : power? x p = some y) :
    (x = 1 ∧ y = 1) ∨ (x = 0 ∧ 0 < p ∧ y = 0) ∨ ∃ n : ℤ, x ≠ 0 ∧ p = n ∧ y = x ^ n := by
  rw [power?] at h
  split at h
  next hx => exact .inl ⟨hx, (Option.some.inj h).symm⟩
  next =>
    split at h
    next hx =>
      split at h
      next hp => exact .inr (.inl ⟨hx, hp, (Option.some.inj h).symm⟩)
      next => exact nomatch h
    next hx =>
      split at h
      next hp =>
        exact .inr (.inr ⟨p.num, hx, ((Rat.den_eq_one_iff p).mp hp).symm, (Option.some.inj h).symm⟩)
      next => exact nomatch h

theorem power?_one (x : ℚ) : power? x 1 = some x := by
  by_cases hx : x = 0
  · subst hx; rw [zero_power?, if_pos one_pos]
  · have := power?_integer hx 1
    rwa [Int.cast_one, zpow_one] at this

theorem power?_negOne (x : ℚ) : power? x (-1) = inverse (some x) := by
  by_cases hx : x = 0
  · subst hx; rw [zero_power?, if_neg (by norm_num), inverse_zero]
  · have := power?_integer hx (-1)
    rwa [Int.cast_neg, Int.cast_one, zpow_neg_one, ← inverse_some hx] at this

/-- A power with the exponent zero is one. -/
theorem power?_zero (h : power? x 0 = some y) : y = 1 := by
  rcases power?_cases h with ⟨-, hy⟩ | ⟨-, hp, -⟩ | ⟨n, -, hn, hy⟩
  · exact hy
  · exact absurd hp (lt_irrefl 0)
  · obtain rfl : n = 0 := by exact_mod_cast hn.symm
    rw [hy, zpow_zero]

/-- `x ^ (p + q) = x ^ p * x ^ q` where the right side is defined. -/
theorem power?_add (hp : power? x p = some y) (hq : power? x q = some z) :
    power? x (p + q) = some (y * z) := by
  by_cases h1 : x = 1
  · subst h1
    rw [one_power?] at hp hq ⊢
    rw [← Option.some.inj hp, ← Option.some.inj hq, one_mul]
  · by_cases h0 : x = 0
    · subst h0
      rw [zero_power?] at hp hq ⊢
      split at hp
      next hp' =>
        split at hq
        next hq' =>
          rw [if_pos (add_pos hp' hq'), ← Option.some.inj hp, zero_mul]
        next => exact nomatch hq
      next => exact nomatch hp
    · obtain ⟨m, -, rfl, rfl⟩ := ((power?_cases hp).resolve_left (by simp [h1])).resolve_left
        (by simp [h0])
      obtain ⟨n, -, rfl, rfl⟩ := ((power?_cases hq).resolve_left (by simp [h1])).resolve_left
        (by simp [h0])
      rw [← Int.cast_add, power?_integer h0, zpow_add₀ h0]

/-- `x ^ -p = (x ^ p)⁻¹` where the right side is defined. -/
theorem power?_neg (hp : power? x p = some y) (hy : y ≠ 0) : power? x (-p) = some y⁻¹ := by
  rcases power?_cases hp with ⟨rfl, rfl⟩ | ⟨-, -, rfl⟩ | ⟨n, hx, rfl, rfl⟩
  · rw [one_power?, inv_one]
  · exact absurd rfl hy
  · rw [← Int.cast_neg, power?_integer hx, zpow_neg]

/-- `x ^ (p n) = (x ^ p) ^ n` for an integer `n`, where the right side is defined. -/
theorem power?_mul {n : ℤ} (hp : power? x p = some y) (hn : power? y n = some z) :
    power? x (p * n) = some z := by
  rcases power?_cases hp with ⟨rfl, rfl⟩ | ⟨rfl, hpos, rfl⟩ | ⟨m, hx, rfl, rfl⟩
  · rw [one_power?] at hn ⊢
    exact hn
  · rw [zero_power?] at hn ⊢
    split at hn
    next h => rw [if_pos (mul_pos hpos h), hn]
    next => exact nomatch hn
  · rw [power?_integer (zpow_ne_zero m hx)] at hn
    rw [← Int.cast_mul, power?_integer hx, zpow_mul, hn]

/-- `(x y) ^ n = x ^ n y ^ n` for an integer `n`, where the left side is defined. -/
theorem mul_power? {n : ℤ} (h : power? (x * y) n = some z) :
    power? x n * power? y n = some z := by
  by_cases hxy : x * y = 0
  · rw [hxy, zero_power?] at h
    split at h
    next hn =>
      have hn' : n ≠ 0 := by rintro rfl; simp at hn
      have hpow : ∀ w : ℚ, power? w n = some (w ^ n) := fun w => by
        by_cases hw : w = 0
        · rw [hw, zero_power?, if_pos hn, zero_zpow n hn']
        · exact power?_integer hw n
      rw [hpow, hpow, some_mul_some, ← mul_zpow, hxy, zero_zpow n hn', h]
    next => exact nomatch h
  · obtain ⟨hx, hy⟩ := mul_ne_zero_iff.mp hxy
    rw [power?_integer hxy] at h
    rw [power?_integer hx, power?_integer hy, some_mul_some, ← mul_zpow, h]

end ExactAlgebra.Partial
