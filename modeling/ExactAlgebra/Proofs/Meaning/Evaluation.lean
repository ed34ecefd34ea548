import ExactAlgebra.Expr.Evaluate
import ExactAlgebra.Proofs.Calculation

/-!
# Evaluation with numbers

When numbers are substituted for the variables, an expression is worked out to a number if all of
its powers are.  The exponent laws ask for a little more: apart from powers of a number or a
variable, exponents are integers.  Expressions with this property under an assignment are called
tame.

* `subpowers`: all powers in an expression.  `RationalPower`: the power of two numbers is a number,
  if it is anything.
* `substitute_rational`: if all powers are of this kind, the expression is worked out to its value,
  or fails if it has none.
* `Tame`: what else is asked of the powers of an expression under an assignment.
* `Admission.integral`: the admission that leaves all other powers out of account;
  `denote_integral`: tame expressions have the same value under it.
-/

namespace ExactAlgebra

open Build Partial ExactAlgebra.Expr

namespace Expr

def isAtom : Expr → Bool
  | .num _ => true
  | .var _ => true
  | _ => false

theorem isAtom_congr {a b : Expr} (h : (a == b) = true) : a.isAtom = b.isAtom := by
  cases a <;> cases b <;> first | rfl | exact nomatch h

mutual

/-- The bases and exponents of all powers in an expression, entries of products included. -/
def subpowers : Expr → List (Expr × Expr)
  | .num _ => []
  | .var _ => []
  | .power _ b e => (b, e) :: (b.subpowers ++ e.subpowers)
  | .product _ _ factors => factorsSubpowers factors
  | .sum _ _ summands => summandsSubpowers summands

/-- The powers in the entries of a product, and the entries themselves. -/
def factorsSubpowers : List (Expr × Expr) → List (Expr × Expr)
  | [] => []
  | (b, e) :: factors => (b, e) :: (b.subpowers ++ e.subpowers ++ factorsSubpowers factors)

def summandsSubpowers : List (Expr × Num) → List (Expr × Expr)
  | [] => []
  | (t, _) :: summands => t.subpowers ++ summandsSubpowers summands

end

theorem mem_factorsSubpowers {factors : List (Expr × Expr)} {p : Expr × Expr} :
    p ∈ factorsSubpowers factors ↔
      ∃ q ∈ factors, p = q ∨ p ∈ q.1.subpowers ∨ p ∈ q.2.subpowers := by
  induction factors with
  | nil => simp [factorsSubpowers]
  | cons q factors ih =>
    simp only [factorsSubpowers, List.mem_cons, List.mem_append, ih, exists_eq_or_imp, Prod.mk.eta,
      or_assoc]

theorem mem_summandsSubpowers {summands : List (Expr × Num)} {p : Expr × Expr} :
    p ∈ summandsSubpowers summands ↔ ∃ q ∈ summands, p ∈ q.1.subpowers := by
  induction summands with
  | nil => simp [summandsSubpowers]
  | cons q summands ih =>
    simp only [summandsSubpowers, List.mem_append, ih, List.mem_cons, exists_eq_or_imp]

variable (ρ : String → Option ℚ)

/-- Where base and exponent have values, the exponent is an integer, unless the base is zero or
one. -/
def RationalPower (b e : Expr) : Prop :=
  ∀ x y, b.denote .all ρ = some x → e.denote .all ρ = some y → y.den = 1 ∨ x = 0 ∨ x = 1

/-- Where base and exponent have values, the exponent is an integer, unless the base is a number or
a variable with the value zero or one. -/
def TamePower (b e : Expr) : Prop :=
  ∀ x y, b.denote .all ρ = some x → e.denote .all ρ = some y →
    y.den = 1 ∨ b.isAtom = true ∧ (x = 0 ∨ x = 1)

inductive Tame : Expr → Prop where
  | num (n : Num) : Tame (.num n)
  | var (name : String) : Tame (.var name)
  | power (age : Nat) {b e : Expr} (hb : Tame b) (he : Tame e) (h : TamePower ρ b e) :
    Tame (.power age b e)
  | product (age : Nat) (c : Num) {factors : List (Expr × Expr)} (hb : ∀ p ∈ factors, Tame p.1)
    (he : ∀ p ∈ factors, Tame p.2) (h : ∀ p ∈ factors, TamePower ρ p.1 p.2) :
    Tame (.product age c factors)
  | sum (age : Nat) (c : Num) {summands : List (Expr × Num)} (ht : ∀ p ∈ summands, Tame p.1) :
    Tame (.sum age c summands)

variable {ρ} in
theorem TamePower.rationalPower {b e : Expr} (h : TamePower ρ b e) : RationalPower ρ b e :=
  fun x y hx hy => (h x y hx hy).imp_right And.right

variable {ρ} in
/-- All powers in a tame expression are tame. -/
theorem Tame.tamePower {e : Expr} (h : Tame ρ e) : ∀ p ∈ e.subpowers, TamePower ρ p.1 p.2 := by
  induction h with
  | num n => exact List.forall_mem_nil _
  | var name => exact List.forall_mem_nil _
  | power age _ _ h ihb ihe =>
    rw [subpowers, List.forall_mem_cons, List.forall_mem_append]
    exact ⟨h, ihb, ihe⟩
  | product age c _ _ h ihb ihe =>
    intro p hp
    obtain ⟨q, hq, rfl | hp | hp⟩ := mem_factorsSubpowers.mp hp
    · exact h p hq
    · exact ihb q hq p hp
    · exact ihe q hq p hp
  | sum age c _ ih =>
    intro p hp
    obtain ⟨q, hq, hp⟩ := mem_summandsSubpowers.mp hp
    exact ih q hq p hp

variable {ρ} in
theorem TamePower.of_integer (b : Expr) {e : Num} (h : e.value.den = 1) :
    TamePower ρ b (.num e) := by
  intro x y _ hy
  rw [denote_num] at hy
  rw [← Option.some.inj hy]
  exact .inl h

/-! ## Substitution -/

variable {ρ} {value : String → Option Expr}

/-- The assignment gives numbers to the variables, and `ρ` their values. -/
def Assigns (value : String → Option Expr) (ρ : String → Option ℚ) : Prop :=
  ∀ name, match value name with
    | some e => ∃ n, e = .num n ∧ ρ name = some n.value
    | none => ρ name = none

/-- A variable without a value, or a power of zero that is not defined. -/
def Unworkable (value : String → Option Expr) (f : Fault) : Prop :=
  (∃ name, value name = none ∧ f = .unboundVariable name) ∨ f.IsUndefinedPower

theorem ofPower_calculates {b e : Expr} {x y : Num} (h : RationalPower ρ b e)
    (hb : b.denote .all ρ = some x.value) (he : e.denote .all ρ = some y.value) :
    Calculates (ofPower (.num x) (.num y)) (denoteFactor .all ρ (b, e)) (Unworkable value) := by
  have hv : denoteFactor .all ρ (b, e) = power? x.value y.value := by
    rw [denoteFactor, hb, he]
    rfl
  rw [hv]
  refine (Num.toPower_calculates ?_).weaken fun _ => .inr
  rcases h _ _ hb he with h | h | h
  · exact .inr (.inr (Num.isInteger_iff.mpr h))
  · exact .inl h
  · exact .inr (.inl h)

/-- Base and exponent are worked out, then the power. -/
theorem substitutePower_calculates {b e : Expr}
    (hb : Calculates (b.substitute value) (b.denote .all ρ) (Unworkable value))
    (he : Calculates (e.substitute value) (e.denote .all ρ) (Unworkable value))
    (h : RationalPower ρ b e) :
    Calculates (do let b ← b.substitute value; ofPower b (← e.substitute value))
      (denoteFactor .all ρ (b, e)) (Unworkable value) := by
  refine (hb.mono (fun _ => id) fun _ h => ?_).bind fun r hr =>
    (he.mono (fun _ => id) fun _ h => ?_).bind fun r' hr' => ?_
  · rw [denoteFactor, h.1]
    exact ⟨rfl, h.2⟩
  · obtain ⟨n, -, hn⟩ := hr
    rw [denoteFactor, hn, h.1]
    exact ⟨rfl, h.2⟩
  · obtain ⟨n, rfl, hn⟩ := hr
    obtain ⟨m, rfl, hm⟩ := hr'
    exact ofPower_calculates h hn hm

theorem substituteFactors_calculates {factors : List (Expr × Expr)}
    (ih : ∀ p ∈ factors,
      Calculates (p.1.substitute value) (p.1.denote .all ρ) (Unworkable value) ∧
        Calculates (p.2.substitute value) (p.2.denote .all ρ) (Unworkable value))
    (h : ∀ p ∈ factors, RationalPower ρ p.1 p.2) :
    Ensures (substituteFactors value factors)
      (fun es => ∃ ns : List Num, es = ns.map .num ∧
        denoteFactors .all ρ factors = (ns.map fun n => some n.value).prod)
      fun f => denoteFactors .all ρ factors = none ∧ Unworkable value f := by
  induction factors with
  | nil => exact .pure ⟨[], rfl, rfl⟩
  | cons p factors ihl =>
    obtain ⟨b, e⟩ := p
    rw [List.forall_mem_cons] at ih h
    have hcons : substituteFactors value ((b, e) :: factors) =
        (do let b ← b.substitute value; ofPower b (← e.substitute value)) >>= fun f =>
          substituteFactors value factors >>= fun es => return f :: es := by
      simp [substituteFactors]
    have hvalue : denoteFactors .all ρ ((b, e) :: factors) =
        denoteFactor .all ρ (b, e) * denoteFactors .all ρ factors := rfl
    rw [hcons, hvalue]
    refine ((substitutePower_calculates ih.1.1 ih.1.2 h.1).mono (fun _ => id) fun _ h => ?_).bind
      fun r hr => ((ihl ih.2 h.2).mono (fun _ => id) fun _ h => ?_).bind fun es hes => .pure ?_
    · rw [h.1, none_mul]
      exact ⟨rfl, h.2⟩
    · rw [h.1, mul_none]
      exact ⟨rfl, h.2⟩
    · obtain ⟨n, rfl, hn⟩ := hr
      obtain ⟨ns, rfl, hns⟩ := hes
      exact ⟨n :: ns, rfl, by rw [hn, hns, List.map_cons, List.prod_cons]⟩

theorem substituteSummands_calculates {summands : List (Expr × Num)}
    (ih : ∀ p ∈ summands,
      Calculates (p.1.substitute value) (p.1.denote .all ρ) (Unworkable value)) :
    Ensures (substituteSummands value summands)
      (fun terms => ∃ ns : List Num, terms = ns.map (fun n => (.num n, .plus)) ∧
        denoteSummands .all ρ summands = some (ns.map Num.value).sum)
      fun f => denoteSummands .all ρ summands = none ∧ Unworkable value f := by
  induction summands with
  | nil => exact .pure ⟨[], rfl, rfl⟩
  | cons p summands ihl =>
    obtain ⟨t, c⟩ := p
    rw [List.forall_mem_cons] at ih
    rw [substituteSummands, denoteSummands]
    refine (ih.1.mono (fun _ => id) fun _ h => ?_).bind fun r hr => ?_
    · rw [h.1, mul_none, none_add]
      exact ⟨rfl, h.2⟩
    · obtain ⟨n, rfl, hn⟩ := hr
      refine ((ofProduct_calculates_factors [n, c]).mono (fun _ => id)
        fun _ (h : _ ∧ False) => h.2.elim).bind fun r hr =>
        ((ihl ih.2).mono (fun _ => id) fun _ h => ?_).bind fun terms hterms => .pure ?_
      · rw [h.1, add_none]
        exact ⟨rfl, h.2⟩
      · obtain ⟨m, rfl, hm⟩ := hr
        obtain ⟨ns, rfl, hns⟩ := hterms
        rw [List.map_cons, List.map_singleton, List.prod_cons, List.prod_singleton] at hm
        exact ⟨m :: ns, rfl, by rw [hn, hns, mul_comm, hm, some_add_some, List.map_cons,
          List.sum_cons]⟩

/-- **An expression whose powers are numbers, where they are defined, is worked out to its value**,
and nothing is worked out without one. -/
theorem substitute_rational (hv : Assigns value ρ) {e : Expr}
    (h : ∀ p ∈ e.subpowers, RationalPower ρ p.1 p.2) :
    Calculates (e.substitute value) (e.denote .all ρ) (Unworkable value) := by
  induction e with
  | num n => exact .pure ⟨n, rfl, denote_num n⟩
  | var name =>
    have hname := hv name
    rw [substitute, denote]
    split
    next e he =>
      rw [he] at hname
      exact .pure hname
    next he =>
      rw [he] at hname
      exact .throw ⟨hname, .inl ⟨name, he, rfl⟩⟩
  | power age b e ihb ihe =>
    rw [subpowers, List.forall_mem_cons, List.forall_mem_append] at h
    rw [substitute, denote]
    exact substitutePower_calculates (ihb h.2.1) (ihe h.2.2) h.1
  | product age c factors ih =>
    have hfactor : ∀ q ∈ factors, ∀ p, p = q ∨ p ∈ q.1.subpowers ∨ p ∈ q.2.subpowers →
        RationalPower ρ p.1 p.2 := fun q hq p hp => h p (mem_factorsSubpowers.mpr ⟨q, hq, hp⟩)
    have hfactors := substituteFactors_calculates
      (fun q hq => ⟨(ih q hq).1 fun p hp => hfactor q hq p (.inr (.inl hp)),
        (ih q hq).2 fun p hp => hfactor q hq p (.inr (.inr hp))⟩)
      fun q hq => hfactor q hq q (.inl rfl)
    rw [substitute, denote]
    refine (hfactors.mono (fun _ => id) fun _ h => ?_).bind fun es hes => ?_
    · rw [h.1, mul_none]
      exact ⟨rfl, h.2⟩
    · obtain ⟨ns, rfl, hns⟩ := hes
      have hp := ofProduct_calculates_factors (c :: ns) (F := Unworkable value)
      rwa [List.map_cons, List.map_cons, List.prod_cons, ← hns] at hp
  | sum age c summands ih =>
    have hsummands := substituteSummands_calculates fun q hq =>
      ih q hq fun p hp => h p (mem_summandsSubpowers.mpr ⟨q, hq, hp⟩)
    rw [substitute, denote]
    refine (hsummands.mono (fun _ => id) fun _ h => ?_).bind fun terms hterms => ?_
    · rw [h.1, add_none]
      exact ⟨rfl, h.2⟩
    · obtain ⟨ns, rfl, hns⟩ := hterms
      have hs := ofSum_calculates_plus (F := Unworkable value) (ns ++ [c])
      rw [List.map_append, List.map_append, List.sum_append, List.map_singleton,
        List.map_singleton, List.sum_singleton] at hs
      rwa [hns, some_add_some, add_comm]

/-- A tame expression is worked out to its value, and nothing is worked out without one. -/
theorem substitute_calculates (hv : Assigns value ρ) {e : Expr} (h : Tame ρ e) :
    Calculates (e.substitute value) (e.denote .all ρ) fun _ => True :=
  (substitute_rational hv fun p hp => (h.tamePower p hp).rationalPower).weaken fun _ _ => trivial

/-! ## Integral powers -/

theorem isInteger_iff {q : ℚ} : q.den = 1 ↔ ∃ n : ℤ, q = n := by
  constructor
  · intro h
    exact ⟨q.num, ((Rat.den_eq_one_iff q).mp h).symm⟩
  · rintro ⟨n, rfl⟩
    exact Rat.den_intCast n

end Expr

/-- Integers count for every base, other exponents for numbers and variables only. -/
def Admission.integral : Admission where
  admits b q := b.isAtom || q.den == 1
  congr h q := by rw [isAtom_congr h]
  integer b n := by rw [Rat.den_intCast, Bool.or_eq_true]; exact .inr rfl
  add := by
    intro b p q hp hq
    rw [Bool.or_eq_true, beq_iff_eq, Expr.isInteger_iff] at *
    rcases hp with hp | ⟨m, rfl⟩
    · exact .inl hp
    · rcases hq with hq | ⟨n, rfl⟩
      · exact .inl hq
      · exact .inr ⟨m + n, (Int.cast_add m n).symm⟩
  neg := by
    intro b q hq
    rw [Bool.or_eq_true, beq_iff_eq, Expr.isInteger_iff] at *
    rcases hq with hq | ⟨n, rfl⟩
    · exact .inl hq
    · exact .inr ⟨-n, (Int.cast_neg n).symm⟩

namespace Expr

variable {ρ : String → Option ℚ}

theorem integral_admits {b : Expr} {q : ℚ} :
    Admission.integral.admits b q = true ↔ b.isAtom = true ∨ ∃ n : ℤ, q = n := by
  rw [← isInteger_iff, ← beq_iff_eq (a := q.den)]
  exact iff_of_eq (Bool.or_eq_true _ _)

/-- A tame power counts when only integral powers do. -/
theorem denoteFactor_integral {b e : Expr} (h : TamePower ρ b e)
    (hb : b.denote .integral ρ = b.denote .all ρ) (he : e.denote .integral ρ = e.denote .all ρ) :
    denoteFactor .integral ρ (b, e) = denoteFactor .all ρ (b, e) := by
  rw [denoteFactor, denoteFactor, hb, he]
  simp only [Admission.raise]
  cases hx : b.denote .all ρ with
  | none => rfl
  | some x =>
    cases hy : e.denote .all ρ with
    | none => rfl
    | some y =>
      rw [Option.bind_some, Option.bind_some, Option.bind_some, Option.bind_some,
        if_pos (integral_admits.mpr ?_)]
      · rfl
      · rcases h x y hx hy with h | h
        · exact .inr (isInteger_iff.mp h)
        · exact .inl h.1

/-- A tame expression loses nothing when only integral powers count. -/
theorem denote_integral {e : Expr} (h : Tame ρ e) : e.denote .integral ρ = e.denote .all ρ := by
  induction h with
  | num n => rfl
  | var name => rfl
  | power age hb he h ihb ihe => rw [denote, denote]; exact denoteFactor_integral h ihb ihe
  | product age c hb he h ihb ihe =>
    rw [denote, denote, denoteFactors_eq, denoteFactors_eq,
      List.map_congr_left fun p hp => denoteFactor_integral (h p hp) (ihb p hp) (ihe p hp)]
  | @sum age c summands ht iht =>
    have hsummand : ∀ p ∈ summands, denoteSummand .integral ρ p = denoteSummand .all ρ p :=
      fun p hp => by rw [denoteSummand, denoteSummand, iht p hp]
    rw [denote, denote, denoteSummands_eq, denoteSummands_eq, List.map_congr_left hsummand]

theorem tamePower_of_denote {b e : Expr} (hb : Tame ρ b) (he : Tame ρ e)
    (h : (denoteFactor .integral ρ (b, e)).isSome = true) : TamePower ρ b e := by
  intro x y hx hy
  obtain ⟨w, hw⟩ := Option.isSome_iff_exists.mp h
  rw [denoteFactor, denote_integral hb, denote_integral he, hx, hy] at hw
  obtain ⟨_, _, ⟨⟩, ⟨⟩, hadmits, hpow⟩ := Admission.raise_eq_some.mp hw
  rcases integral_admits.mp hadmits with hatom | hint
  · rcases power?_cases hpow with ⟨h1, -⟩ | ⟨h0, -⟩ | ⟨n, -, hn, -⟩
    · exact .inr ⟨hatom, .inr h1⟩
    · exact .inr ⟨hatom, .inl h0⟩
    · exact .inl (isInteger_iff.mpr ⟨n, hn⟩)
  · exact .inl (isInteger_iff.mpr hint)

/-- What has a value when only integral powers count is tame. -/
theorem tame_of_denote {e : Expr} (h : (e.denote .integral ρ).isSome = true) : Tame ρ e := by
  induction e with
  | num n => exact .num n
  | var name => exact .var name
  | power age b e ihb ihe =>
    rw [denote] at h
    obtain ⟨hb, he⟩ := Admission.isSome_of_raise h
    exact .power age (ihb hb) (ihe he) (tamePower_of_denote (ihb hb) (ihe he) h)
  | product age c factors ih =>
    rw [denote, denoteFactors_eq] at h
    have hall := isSome_prod.mp (isSome_mul.mp h).2
    have hfactor : ∀ p ∈ factors, (denoteFactor .integral ρ p).isSome = true :=
      fun p hp => hall _ (List.mem_map_of_mem hp)
    have hb : ∀ p ∈ factors, Tame ρ p.1 := fun p hp =>
      (ih p hp).1 (Admission.isSome_of_raise (hfactor p hp)).1
    have he : ∀ p ∈ factors, Tame ρ p.2 := fun p hp =>
      (ih p hp).2 (Admission.isSome_of_raise (hfactor p hp)).2
    exact .product age c hb he fun p hp => tamePower_of_denote (hb p hp) (he p hp) (hfactor p hp)
  | sum age c summands ih =>
    rw [denote, denoteSummands_eq] at h
    have hall := isSome_sum.mp (isSome_add.mp h).2
    exact .sum age c fun p hp => ih p hp (isSome_mul.mp (hall _ (List.mem_map_of_mem hp))).2

end Expr

end ExactAlgebra
