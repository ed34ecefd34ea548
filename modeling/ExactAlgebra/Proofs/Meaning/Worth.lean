import ExactAlgebra.Proofs.Meaning.Evaluation
import ExactAlgebra.Proofs.Printed
import Mathlib

/-!
# Evaluation is exact

When its variables stand for rationals, an expression is worth a rational if each of its powers is.
A power that is none may be undefined, which is an error, or stay symbolic, which is none.

* `Expr.worth`: what an expression is worth, worked out from the leaves up.
* `substitute_congr`: nothing but the values of its own variables matters to an expression.
* `evaluate_exact`: an expression is evaluated to the rational that it is worth, and what is
  undefined is reported.
-/

namespace ExactAlgebra

open Build Partial

inductive Worth where
  | rational (q : ℚ)
  /-- Zero is raised to an exponent that is not positive. -/
  | undefined
  /-- A power is no rational, and not undefined either. -/
  | symbolic
  deriving DecidableEq

namespace Worth

/-- Combines what two parts are worth.  With a symbolic part the whole is symbolic, and otherwise
undefined with an undefined one. -/
def combine (f : ℚ → ℚ → Worth) : Worth → Worth → Worth
  | .rational x, .rational y => f x y
  | .symbolic, _ => .symbolic
  | _, .symbolic => .symbolic
  | _, _ => .undefined

def add : Worth → Worth → Worth := combine fun x y => .rational (x + y)

def multiply : Worth → Worth → Worth := combine fun x y => .rational (x * y)

def power (x p : ℚ) : Worth :=
  if p.den = 1 ∧ (x ≠ 0 ∨ 0 < p) then .rational (x ^ p.num)
  else if x = 1 then .rational 1
  else if x = 0 then if 0 < p then .rational 0 else .undefined
  else .symbolic

def rational? : Worth → Option ℚ
  | .rational q => some q
  | _ => none

theorem rational?_eq_some {w : Worth} {q : ℚ} : w.rational? = some q ↔ w = .rational q := by
  cases w <;> simp [rational?]

theorem rational?_combine {f : ℚ → ℚ → Worth} (v w : Worth) :
    (combine f v w).rational? = v.rational?.bind fun x => w.rational?.bind fun y =>
      (f x y).rational? := by
  cases v <;> cases w <;> rfl

theorem rational?_add (v w : Worth) : (v.add w).rational? = v.rational? + w.rational? := by
  cases v <;> cases w <;> rfl

theorem rational?_multiply (v w : Worth) :
    (v.multiply w).rational? = v.rational? * w.rational? := by
  cases v <;> cases w <;> rfl

/-- A power of rationals is worth its rational value, if it has one. -/
theorem rational?_power (x p : ℚ) : (power x p).rational? = power? x p := by
  rw [power]
  split
  next h =>
    obtain ⟨hp, hx⟩ := h
    have hint : p = p.num := ((Rat.den_eq_one_iff p).mp hp).symm
    rcases hx with hx | hx
    · have hpow := power?_integer hx p.num
      rw [← hint] at hpow
      rw [hpow, rational?]
    · by_cases h0 : x = 0
      · rw [h0, zero_power?, if_pos hx, zero_zpow _ (Rat.num_pos.mpr hx).ne', rational?]
      · have hpow := power?_integer h0 p.num
        rw [← hint] at hpow
        rw [hpow, rational?]
  next h =>
    by_cases h1 : x = 1
    · rw [if_pos h1, h1, one_power?, rational?]
    · rw [if_neg h1, power?, if_neg h1]
      by_cases h0 : x = 0
      · rw [if_pos h0, if_pos h0]
        split <;> rfl
      · rw [if_neg h0, if_neg h0, if_neg fun hp => h ⟨hp, .inl h0⟩]
        rfl

/-- A power of rationals is symbolic unless its exponent is an integer or its base is zero or
one. -/
theorem power_ne_symbolic {x p : ℚ} (h : power x p ≠ .symbolic) : p.den = 1 ∨ x = 0 ∨ x = 1 := by
  rw [power] at h
  split at h
  next hp => exact .inl hp.1
  next =>
    split at h
    next h1 => exact .inr (.inr h1)
    next =>
      split at h
      next h0 => exact .inr (.inl h0)
      next => exact absurd rfl h

end Worth

namespace Expr

section Worth

variable (ρ : String → ℚ)

mutual

/-- What an expression is worth when its variables stand for rationals. -/
def worth : Expr → Worth
  | .num n => .rational n.value
  | .var name => .rational (ρ name)
  | .power _ b e => .combine .power b.worth e.worth
  | .product _ c factors => .multiply (.rational c.value) (factorsWorth factors)
  | .sum _ c summands => .add (.rational c.value) (summandsWorth summands)

def factorsWorth : List (Expr × Expr) → Worth
  | [] => .rational 1
  | (b, e) :: factors => .multiply (.combine .power b.worth e.worth) (factorsWorth factors)

def summandsWorth : List (Expr × Num) → Worth
  | [] => .rational 0
  | (t, c) :: summands => .add (.multiply (.rational c.value) t.worth) (summandsWorth summands)

end

def powerWorth (p : Expr × Expr) : Worth := .combine .power (p.1.worth ρ) (p.2.worth ρ)

end Worth

/-! ## Worth and value -/

section Value

variable {ρ : String → ℚ}

/-- A power is worth a rational iff it has this value, as soon as this is so for its parts. -/
theorem rational?_power {b e : Expr}
    (hb : (b.worth ρ).rational? = b.denote .all fun name => some (ρ name))
    (he : (e.worth ρ).rational? = e.denote .all fun name => some (ρ name)) :
    (powerWorth ρ (b, e)).rational? = denoteFactor .all (fun name => some (ρ name)) (b, e) := by
  rw [powerWorth, Worth.rational?_combine, hb, he]
  simp only [Worth.rational?_power]
  rfl

/-- **An expression is worth a rational iff it has this value.** -/
theorem rational?_worth (e : Expr) :
    (e.worth ρ).rational? = e.denote .all fun name => some (ρ name) := by
  induction e with
  | num n => rw [worth, denote, Worth.rational?]
  | var name => rw [worth, denote, Worth.rational?]
  | power age b e ihb ihe => rw [worth, denote]; exact rational?_power ihb ihe
  | product age c factors ih =>
    rw [worth, denote, Worth.rational?_multiply, Worth.rational?]
    congr 1
    induction factors with
    | nil => rfl
    | cons p factors ihl =>
      rw [List.forall_mem_cons] at ih
      have hfactor := rational?_power ih.1.1 ih.1.2
      rw [factorsWorth, denoteFactors, Worth.rational?_multiply, ihl ih.2]
      exact congrArg (· * _) hfactor
  | sum age c summands ih =>
    rw [worth, denote, Worth.rational?_add, Worth.rational?]
    congr 1
    induction summands with
    | nil => rfl
    | cons p summands ihl =>
      rw [List.forall_mem_cons] at ih
      rw [summandsWorth, denoteSummands, Worth.rational?_add, Worth.rational?_multiply,
        Worth.rational?, ih.1, ihl ih.2]

theorem rational?_powerWorth (p : Expr × Expr) :
    (powerWorth ρ p).rational? = denoteFactor .all (fun name => some (ρ name)) p :=
  rational?_power (rational?_worth p.1) (rational?_worth p.2)

/-- What has a value has no power without one. -/
theorem isSome_denoteFactor {A : Admission} {σ : String → Option ℚ} {e : Expr}
    (h : (e.denote A σ).isSome = true) :
    ∀ p ∈ e.subpowers, (denoteFactor A σ p).isSome = true := by
  induction e with
  | num n => exact List.forall_mem_nil _
  | var name => exact List.forall_mem_nil _
  | power age b e ihb ihe =>
    rw [denote] at h
    obtain ⟨hb, he⟩ := Admission.isSome_of_raise h
    rw [subpowers, List.forall_mem_cons, List.forall_mem_append]
    exact ⟨h, ihb hb, ihe he⟩
  | product age c factors ih =>
    rw [denote, denoteFactors_eq, isSome_mul, isSome_prod, List.forall_mem_map] at h
    intro p hp
    obtain ⟨q, hq, hp⟩ := mem_factorsSubpowers.mp hp
    obtain ⟨hb, he⟩ := Admission.isSome_of_raise (h.2 q hq)
    rcases hp with rfl | hp | hp
    · exact h.2 p hq
    · exact (ih q hq).1 hb p hp
    · exact (ih q hq).2 he p hp
  | sum age c summands ih =>
    rw [denote, denoteSummands_eq, isSome_add, isSome_sum, List.forall_mem_map] at h
    intro p hp
    obtain ⟨q, hq, hp⟩ := mem_summandsSubpowers.mp hp
    exact ih q hq (isSome_mul.mp (h.2 q hq)).2 p hp

/-- A power that is not worth a rational keeps the whole from having a value. -/
theorem denote_eq_none {e : Expr} {p : Expr × Expr} (hp : p ∈ e.subpowers)
    (h : powerWorth ρ p = .undefined) : e.denote .all (fun name => some (ρ name)) = none := by
  rw [← Option.not_isSome_iff_eq_none]
  intro hsome
  have hfactor := isSome_denoteFactor hsome p hp
  rw [← rational?_powerWorth, h] at hfactor
  cases hfactor

/-- A power that does not stay symbolic is a number, if it is anything. -/
theorem rationalPower_of_worth {p : Expr × Expr} (h : powerWorth ρ p ≠ .symbolic) :
    RationalPower (fun name => some (ρ name)) p.1 p.2 := by
  intro x y hx hy
  rw [← rational?_worth, Worth.rational?_eq_some] at hx hy
  rw [powerWorth, hx, hy] at h
  exact Worth.power_ne_symbolic h

end Value

/-! ## Evaluation -/

section Congruence

variable {value value' : String → Option Expr}

/-- Nothing but the values of its own variables matters to an expression. -/
theorem substitute_congr {e : Expr} (h : ∀ name ∈ e.names, value name = value' name) :
    e.substitute value = e.substitute value' := by
  induction e with
  | num n => rfl
  | var name =>
    rw [substitute, substitute, h name (by rw [names]; exact List.mem_singleton_self _)]
  | power age b e ihb ihe =>
    rw [names, List.forall_mem_append] at h
    rw [substitute, substitute, ihb h.1, ihe h.2]
  | product age c factors ih =>
    rw [names] at h
    have hfactors : substituteFactors value factors = substituteFactors value' factors := by
      induction factors with
      | nil => rfl
      | cons p factors ihl =>
        rw [factorsNames, List.forall_mem_append, List.forall_mem_append] at h
        rw [List.forall_mem_cons] at ih
        rw [substituteFactors, substituteFactors, ih.1.1 h.1.1, ih.1.2 h.1.2, ihl ih.2 h.2]
    rw [substitute, substitute, hfactors]
  | sum age c summands ih =>
    rw [names] at h
    have hsummands : substituteSummands value summands = substituteSummands value' summands := by
      induction summands with
      | nil => rfl
      | cons p summands ihl =>
        rw [summandsNames, List.forall_mem_append] at h
        rw [List.forall_mem_cons] at ih
        rw [substituteSummands, substituteSummands, ih.1 h.1, ihl ih.2 h.2]
    rw [substitute, substitute, hsummands]

end Congruence

variable {ρ : String → ℚ}

/-- When the variables stand for rationals, an expression without symbolic powers is worked out to
the number that it denotes, or a power of zero is undefined. -/
theorem evaluate_calculates {e : Expr} {bindings : Bindings}
    (hb : ∀ name ∈ e.names, ∃ n, bindings.value? name = some (.num n) ∧ n.value = ρ name)
    (hp : ∀ p ∈ e.subpowers, powerWorth ρ p ≠ .symbolic) :
    Calculates (e.evaluate bindings) (e.denote .all fun name => some (ρ name))
      Fault.IsUndefinedPower := by
  -- Variables that do not occur in the expression may have any number for a value.
  let value : String → Option Expr := fun name =>
    if name ∈ e.names then bindings.value? name else some (.num ⟨.ofRat (ρ name), 0⟩)
  have hassigns : Assigns value fun name => some (ρ name) := by
    intro name
    by_cases hname : name ∈ e.names
    · obtain ⟨n, hn, hv⟩ := hb name hname
      simp only [value, if_pos hname, hn]
      exact ⟨n, rfl, by rw [hv]⟩
    · simp only [value, if_neg hname]
      exact ⟨_, rfl, rfl⟩
  have hsubstitute : e.evaluate bindings = e.substitute value :=
    substitute_congr fun name hname => by simp only [value, if_pos hname]
  rw [hsubstitute]
  refine (substitute_rational hassigns fun p h => rationalPower_of_worth (hp p h)).weaken ?_
  rintro f (⟨name, hname, -⟩ | hf)
  · have := hassigns name
    rw [hname] at this
    cases this
  · exact hf

/-- **Evaluation is exact.**  An expression is evaluated to the rational that it is worth, and if
none of its powers stays symbolic but one is undefined, this is reported. -/
theorem evaluate_exact {e : Expr} {bindings : Bindings}
    (hb : ∀ name ∈ e.names, ∃ n, bindings.value? name = some (.num n) ∧ n.value = ρ name)
    (s : Supply) :
    (∀ q, e.worth ρ = .rational q →
      ∃ n, (e.evaluate bindings s).1 = .ok (.num n) ∧ n.value = q) ∧
    ((∀ p ∈ e.subpowers, powerWorth ρ p ≠ .symbolic) →
      (∃ p ∈ e.subpowers, powerWorth ρ p = .undefined) →
      ∃ q ≤ 0, (e.evaluate bindings s).1 = .error (.undefinedPower 0 q)) := by
  constructor
  · intro q hq
    have hdenote := rational?_worth (ρ := ρ) e
    rw [hq, Worth.rational?] at hdenote
    refine (evaluate_calculates hb fun p hp hsymbolic => ?_).returns hdenote.symm s
    have hfactor := isSome_denoteFactor (by rw [← hdenote]; rfl) p hp
    rw [← rational?_powerWorth, hsymbolic] at hfactor
    cases hfactor
  · rintro hsymbolic ⟨p, hp, hundefined⟩
    have hcalculates := evaluate_calculates hb hsymbolic s
    rw [denote_eq_none hp hundefined] at hcalculates
    split at hcalculates
    next r hr =>
      obtain ⟨n, -, hn⟩ := hcalculates
      cases hn
    next f hf =>
      obtain ⟨q, hq, rfl⟩ := hcalculates.2
      exact ⟨q, hq, hf⟩

/-- With `2` for `x` and `-3` for `y`, `3 x^y (x + y)^-2` is evaluated to `3/8`, and `x^y (x - 2)^y`
is undefined. -/
theorem evaluate_exact_product :
    (∃ n, (evaluate (.product 9 ⟨3, 5⟩ [(.var "x", .var "y"),
        (.sum 7 .zero [(.var "x", .one), (.var "y", .one)], .num ⟨-2, 8⟩)])
        [("x", .num ⟨2, 5⟩), ("y", .num ⟨-3, 6⟩)] .initial).1 = .ok (.num n) ∧ n.value = 3 / 8) ∧
      ∃ q ≤ 0, (evaluate (.product 9 .one [(.var "x", .var "y"),
        (.sum 7 ⟨-2, 5⟩ [(.var "x", .one)], .var "y")])
        [("x", .num ⟨2, 5⟩), ("y", .num ⟨-3, 6⟩)] .initial).1 = .error (.undefinedPower 0 q) := by
  constructor
  · exact (evaluate_exact (ρ := fun name => if name = "x" then 2 else -3)
      (by simp [names, factorsNames, summandsNames, Bindings.value?]) .initial).1 _ (by cbv)
  · have hpower : powerWorth (fun name => if name = "x" then 2 else -3) (.var "x", .var "y") =
        .rational (1 / 8) := by cbv
    have hundefined : powerWorth (fun name => if name = "x" then 2 else -3)
        (.sum 7 ⟨-2, 5⟩ [(.var "x", .one)], .var "y") = .undefined := by cbv
    exact (evaluate_exact (ρ := fun name => if name = "x" then 2 else -3)
      (by simp [names, factorsNames, summandsNames, Bindings.value?]) .initial).2
      (by simp [subpowers, factorsSubpowers, summandsSubpowers, hpower, hundefined])
      ⟨_, .tail _ (.head _), hundefined⟩

end Expr

end ExactAlgebra
