import ExactAlgebra.Proofs.Canonical.Parts
import ExactAlgebra.Proofs.Grammar
import ExactAlgebra.Proofs.Ledger.Total
import Mathlib.Algebra.MonoidAlgebra.Basic
import Mathlib.Algebra.Order.Ring.Rat

/-!
# Laurent polynomials

Where brackets are absent and exponents are integers, a text denotes a Laurent polynomial over the
rationals, a rational coefficient for every vector of exponents.  This module says which one, and
which one a canonical expression is; it shows that canonical form is complete for such expressions.

* `Laurent`: the ring of Laurent polynomials in all variables.
* `Tree.laurent?`: the Laurent polynomial that a tree without brackets denotes.
* `IsMonomial`, `IsPolynomial`: the expressions that are monomials and polynomials.  `laurent`: the
  Laurent polynomial that they are.
* `IsPolynomial.addends_eq`: the exponents of the terms of a canonical polynomial tell its addends.
* `eq_iff_laurent`: canonical polynomials are equal iff they are the same Laurent polynomial.
-/

namespace ExactAlgebra

open AddMonoidAlgebra (single)

/-! ## Laurent polynomials -/

/-- The ring of Laurent polynomials: a rational coefficient for every vector of exponents. -/
abbrev Laurent := AddMonoidAlgebra ℚ (String →₀ ℤ)

namespace Laurent

/-- The inverse of a unit. -/
noncomputable def inverse? (p : Laurent) : Option Laurent :=
  open Classical in if IsUnit p then some (Ring.inverse p) else none

noncomputable def power? (p : Laurent) : ℤ → Option Laurent
  | .ofNat n => some (p ^ n)
  | .negSucc n => (inverse? p).map (· ^ (n + 1))

/-! ## Monomials -/

variable {v w : String →₀ ℤ} {q r : ℚ}

theorem inverse?_single (hq : q ≠ 0) : inverse? (single v q) = some (single (-v) q⁻¹) := by
  have hmul : single v q * single (-v) q⁻¹ = (1 : Laurent) := by
    rw [AddMonoidAlgebra.single_mul_single, add_neg_cancel, mul_inv_cancel₀ hq]
    rfl
  have hunit : IsUnit (single v q : Laurent) := IsUnit.of_mul_eq_one _ hmul
  rw [inverse?, if_pos hunit]
  exact congrArg some
    (left_inv_eq_right_inv (Ring.inverse_mul_cancel _ hunit) hmul)

theorem power?_single {n : ℤ} (h : 0 ≤ n ∨ q ≠ 0) :
    power? (single v q) n = some (single (n • v) (q ^ n)) := by
  cases n with
  | ofNat n =>
    rw [power?, AddMonoidAlgebra.single_pow]
    simp
  | negSucc n =>
    have hq : q ≠ 0 := h.resolve_left (by simp)
    rw [power?, inverse?_single hq, Option.map_some, AddMonoidAlgebra.single_pow]
    simp [negSucc_zsmul, zpow_negSucc]

end Laurent

/-! ## What trees denote -/

namespace Grammar

open Laurent

noncomputable def negateIf (negated : Bool) (p : Laurent) : Laurent := if negated then -p else p

/-- The constant of a numeral, and a letter to the first power. -/
noncomputable def Atom.laurent : Atom → Laurent
  | .number n => single 0 n.value
  | .variable name => single (Finsupp.single (String.singleton name) 1) 1

/-- The integer that a factor is, with the minus that may stand before it, if it is but a
numeral. -/
def Factor.integer? (negated : Bool) : Factor (Primary Atom) → Option ℤ
  | .operand (.leaf (.number n)) =>
    if n.value.den = 1 then some (if negated then -n.value.num else n.value.num) else none
  | _ => none

noncomputable def Primary.laurent? : Primary Atom → Option Laurent
  | .leaf a => some (Atom.laurent a)
  | .group _ => none

noncomputable def Factor.laurent? : Factor (Primary Atom) → Option Laurent
  | .operand p => p.laurent?
  | .power p negated f => do power? (← p.laurent?) (← f.integer? negated)

noncomputable def Term.laurent? : Term (Factor (Primary Atom)) → Option Laurent
  | .factor f => f.laurent?
  | .multiply t negated f => do return (← t.laurent?) * negateIf negated (← f.laurent?)
  | .divide t negated f => do return (← t.laurent?) * (← inverse? (negateIf negated (← f.laurent?)))

noncomputable def Tree.laurent? : Tree Atom → Option Laurent
  | .term negated t => do return negateIf negated (← t.laurent?)
  | .add s sign t => do return (← Tree.laurent? s) + negateIf (sign = .minus) (← t.laurent?)

def Term.leaves {α : Type} : Term α → List α
  | .factor a => [a]
  | .multiply t _ a | .divide t _ a => t.leaves ++ [a]

def Sum.leaves {α : Type} : Sum α → List α
  | .term _ t => t.leaves
  | .add s _ t => s.leaves ++ t.leaves

/-- The factor is an operand, or an operand with nothing but an integer as its exponent. -/
def Factor.HasIntegerPower : Factor (Primary Atom) → Prop
  | .operand _ => True
  | .power _ negated f => (f.integer? negated).isSome = true

/-- Every exponent in the tree, outside of brackets, is an integer. -/
def Tree.IntegerPowers (s : Tree Atom) : Prop := ∀ f ∈ Sum.leaves s, f.HasIntegerPower

end Grammar

/-! ## What expressions are -/

namespace Expr

def IsVariable (e : Expr) : Prop := ∃ x, e = .var x

def IsInteger (e : Expr) : Prop := ∃ n, e = .num n ∧ n.isInteger = true

/-- A variable with an integer exponent, as an entry of a product. -/
def LetterPower (p : Expr × Expr) : Prop := IsVariable p.1 ∧ IsInteger p.2

/-- A number, or a product of powers of variables with a coefficient. -/
inductive IsMonomial : Expr → Prop where
  | num (n : Num) : IsMonomial (.num n)
  | var (x : String) : IsMonomial (.var x)
  | power (age : Nat) {b e : Expr} (h : LetterPower (b, e)) : IsMonomial (.power age b e)
  | product (age : Nat) (c : Num) {factors : List (Expr × Expr)}
    (h : ∀ p ∈ factors, LetterPower p) : IsMonomial (.product age c factors)

/-- A monomial, or a sum of monomials with coefficients. -/
inductive IsPolynomial : Expr → Prop where
  | monomial {e : Expr} (h : e.IsMonomial) : IsPolynomial e
  | sum (age : Nat) (c : Num) {summands : List (Expr × Num)} (h : ∀ p ∈ summands, p.1.IsMonomial) :
      IsPolynomial (.sum age c summands)

def letterPower : Expr × Expr → String × ℤ
  | (.var x, .num n) => (x, n.value.num)
  | _ => ("", 0)

def letters : Expr → List (String × ℤ)
  | .var x => [(x, 1)]
  | .power _ b e => [letterPower (b, e)]
  | .product _ _ factors => factors.map letterPower
  | _ => []

noncomputable def exponents (e : Expr) : String →₀ ℤ := collect e.letters

noncomputable def monomial (e : Expr) : Laurent := single e.exponents e.scale

noncomputable def termCoefficients (summands : List (Expr × Num)) : List ((String →₀ ℤ) × ℚ) :=
  summands.map fun p => (p.1.exponents, p.2.value * p.1.scale)

noncomputable def coefficients : Expr → List ((String →₀ ℤ) × ℚ)
  | .sum _ c summands => (0, c.value) :: termCoefficients summands
  | e => [(e.exponents, e.scale)]

noncomputable def laurent (e : Expr) : Laurent := (e.coefficients.map fun p => single p.1 p.2).sum

theorem IsMonomial.isSum {e : Expr} (h : e.IsMonomial) : e.isSum = false := by
  cases h <;> rfl

theorem coefficients_of_not_sum {e : Expr} (h : e.isSum = false) :
    e.coefficients = [(e.exponents, e.scale)] := by
  cases e with
  | sum age c summands => exact nomatch h
  | _ => rfl

theorem laurent_of_not_sum {e : Expr} (h : e.isSum = false) : e.laurent = e.monomial := by
  rw [laurent, coefficients_of_not_sum h, List.map_singleton, List.sum_singleton, monomial]

/-! ## Equal expressions are the same Laurent polynomial -/

theorem letterPower_congr {b b' e e' : Expr} (hb : b.beq b' = true) (he : e.beq e' = true) :
    letterPower (b, e) = letterPower (b', e') := by
  cases b <;> cases b' <;> simp only [beq, beq_iff_eq, Bool.false_eq_true] at hb <;> try rfl
  subst hb
  cases e <;> cases e' <;> simp only [beq, Num.beq_iff, Bool.false_eq_true] at he <;> try rfl
  rw [letterPower, letterPower, he]

theorem letters_congr {e e' : Expr} (h : e.beq e' = true) : e'.letters.Perm e.letters := by
  cases e <;> cases e' <;>
    simp only [beq, beq_iff_eq, Bool.and_eq_true, Bool.false_eq_true] at h <;> try exact .refl _
  case var => rw [h]
  case power => rw [letters, letters, letterPower_congr h.1 h.2]
  case product => exact factorsMatch_map (fun _ _ _ hb he => letterPower_congr hb he) h.2

theorem exponents_congr {e e' : Expr} (h : e.beq e' = true) : e.exponents = e'.exponents :=
  ((letters_congr h).map _).sum_eq.symm

theorem coefficients_congr {e e' : Expr} (h : e.beq e' = true) :
    e'.coefficients.Perm e.coefficients := by
  have hmonomial : [(e'.exponents, e'.scale)].Perm [(e.exponents, e.scale)] := by
    rw [exponents_congr h, scale_congr h]
  cases e <;> cases e' <;>
    simp only [beq, Num.beq_iff, Bool.and_eq_true, Bool.false_eq_true] at h <;> try exact hmonomial
  rw [coefficients, coefficients, h.1]
  refine (summandsMatch_map (fun p _ q ht hc => ?_) h.2).cons _
  rw [exponents_congr ht, scale_congr ht, hc]

theorem laurent_congr {e e' : Expr} (h : e.beq e' = true) : e.laurent = e'.laurent :=
  ((coefficients_congr h).map _).sum_eq.symm

end Expr

/-! ## Equal Laurent polynomials are equal expressions -/

namespace Expr

theorem num_eq_of_isInteger {n : Num} (h : n.isInteger = true) : n.value = n.value.num :=
  ((Rat.den_eq_one_iff _).mp (Num.isInteger_iff.mp h)).symm

/-- Distinct variables with exponents that are not zero. -/
structure LettersForm (l : List (String × ℤ)) : Prop where
  distinct : (l.map Prod.fst).Nodup
  ne_zero : ∀ p ∈ l, p.2 ≠ 0
  ne_nil : l ≠ []

theorem letterPower_ne_zero {p : Expr × Expr} (h : LetterPower p) (h0 : p.2.isZero = false) :
    (letterPower p).2 ≠ 0 := by
  obtain ⟨b, e⟩ := p
  obtain ⟨⟨x, rfl⟩, n, rfl, -⟩ := h
  intro hz
  have hn : n.value = 0 := Rat.num_eq_zero.mp hz
  exact ne_true_of_eq_false h0 (Num.isZero_iff.mpr hn)

theorem letterPower_fst_ne {p q : Expr × Expr} (hp : LetterPower p) (hq : LetterPower q)
    (h : (p.1 == q.1) = false) : (letterPower p).1 ≠ (letterPower q).1 := by
  obtain ⟨b, e⟩ := p
  obtain ⟨b', e'⟩ := q
  obtain ⟨⟨x, rfl⟩, n, rfl, -⟩ := hp
  obtain ⟨⟨y, rfl⟩, m, rfl, -⟩ := hq
  intro hxy
  obtain rfl : x = y := hxy
  rw [show (var x == var x) = true from BEq.rfl] at h
  exact nomatch h

def letterFingerprint (p : String × ℤ) : ℕ × ℕ :=
  ((var p.1).fingerprint, (num ⟨.ofInt p.2, 0⟩).fingerprint)

theorem LetterPower.fingerprint_eq {p : Expr × Expr} (h : LetterPower p) :
    (p.1.fingerprint, p.2.fingerprint) = letterFingerprint (letterPower p) := by
  obtain ⟨b, e⟩ := p
  obtain ⟨⟨x, rfl⟩, n, rfl, hn⟩ := h
  rw [letterFingerprint, letterPower, Expr.fingerprint, Expr.fingerprint, Expr.fingerprint,
    num_eq_of_isInteger hn]
  rfl

/-- The letters of a monomial are its powers. -/
theorem IsMonomial.powers_eq {e : Expr} (hm : e.IsMonomial) :
    e.powers = e.letters.map letterFingerprint := by
  cases hm with
  | num n => rfl
  | var x => rfl
  | @power age b e h =>
    have hb : b.isNum = false := by
      obtain ⟨x, rfl⟩ := h.1
      rfl
    rw [powers, hb, if_neg Bool.false_ne_true, h.fingerprint_eq]
    rfl
  | @product age c factors h =>
    rw [powers, factorsFingerprint_eq, letters, List.map_map]
    exact congrArg _ (List.map_congr_left fun p hp => (h p hp).fingerprint_eq)

theorem IsMonomial.letters_form {e : Expr} (hm : e.IsMonomial) (hc : e.Canonical)
    (hn : e.isNum = false) : LettersForm e.letters := by
  cases hm with
  | num n => exact nomatch hn
  | var x =>
    exact ⟨List.nodup_singleton _, fun p hp => by rw [List.mem_singleton.mp hp]; exact one_ne_zero,
      List.cons_ne_nil _ _⟩
  | power age h =>
    cases hc with
    | power _ _ _ form =>
      refine ⟨List.nodup_singleton _, fun p hp => ?_, List.cons_ne_nil _ _⟩
      rw [List.mem_singleton.mp hp]
      exact letterPower_ne_zero h form.exponent_ne_zero
  | @product age c factors h =>
    cases hc with
    | product _ _ _ _ form =>
      refine ⟨?_, fun p hp => ?_, fun hnil => ?_⟩
      · rw [letters, List.map_map, List.Nodup, List.pairwise_map]
        exact form.distinct.imp_of_mem fun hp hq hpq => letterPower_fst_ne (h _ hp) (h _ hq) hpq
      · obtain ⟨q, hq, rfl⟩ := List.mem_map.mp hp
        exact letterPower_ne_zero (h q hq) (form.exponent_ne_zero q hq)
      · rw [letters, List.map_eq_nil_iff] at hnil
        exact form.ne_nil hnil

/-- A monomial that is no number has a variable. -/
theorem IsMonomial.exponents_ne_zero {e : Expr} (hm : e.IsMonomial) (hc : e.Canonical)
    (hn : e.isNum = false) : e.exponents ≠ 0 := by
  have form := hm.letters_form hc hn
  intro h
  have hgraph := graph_collect (m := Multiset.ofList e.letters) form.distinct form.ne_zero
  rw [show collect (e.letters : Multiset (String × ℤ)) = 0 from h, Finsupp.graph_zero] at hgraph
  exact form.ne_nil (Multiset.coe_eq_zero _ |>.mp hgraph.symm)

theorem IsMonomial.scale_ne_zero {e : Expr} (hm : e.IsMonomial) (hc : e.Canonical)
    (hn : e.isNum = false) : e.scale ≠ 0 := by
  cases hm with
  | num n => exact nomatch hn
  | product age c h =>
    cases hc with
    | product _ _ _ _ form =>
      exact fun h0 => ne_true_of_eq_false form.coefficient_ne_zero (Num.isZero_iff.mpr h0)
  | _ => exact one_ne_zero

noncomputable def letterPowers (v : String →₀ ℤ) : Multiset (ℕ × ℕ) :=
  v.graph.val.map letterFingerprint

/-- The exponents of a monomial determine its powers. -/
theorem IsMonomial.powers_of_exponents {e : Expr} (hm : e.IsMonomial) (hc : e.Canonical)
    (hn : e.isNum = false) : e.powers = letterPowers e.exponents := by
  have form := hm.letters_form hc hn
  have hgraph := graph_collect (m := Multiset.ofList e.letters) form.distinct form.ne_zero
  rw [letterPowers, exponents, hgraph, hm.powers_eq, Multiset.map_coe]

noncomputable def letterTerms : Expr → List ((String →₀ ℤ) × ℚ)
  | .num _ => []
  | .sum _ _ summands => termCoefficients summands
  | e => [(e.exponents, e.scale)]

theorem letterTerms_of_term {e : Expr} (hn : e.isNum = false) (hs : e.isSum = false) :
    e.letterTerms = [(e.exponents, e.scale)] := by
  cases e with
  | num n => exact nomatch hn
  | sum age c summands => exact nomatch hs
  | _ => rfl

/-- The coefficients of an expression are its constant and those of its other terms. -/
theorem coeff_laurent (e : Expr) :
    e.laurent.coeff = Finsupp.single 0 e.constant + collect e.letterTerms := by
  have hcollect : e.laurent.coeff = collect e.coefficients := by
    rw [laurent]
    induction e.coefficients with
    | nil => rfl
    | cons p l ih =>
      rw [List.map_cons, List.sum_cons, ← Multiset.cons_coe, collect_cons,
        AddMonoidAlgebra.coeff_add, ih, AddMonoidAlgebra.coeff_single]
  rw [hcollect]
  cases hs : e.isSum with
  | true =>
    cases e with
    | sum age c summands =>
      exact collect_cons (0, c.value) (Multiset.ofList (termCoefficients summands))
    | _ => exact nomatch hs
  | false =>
    rw [coefficients_of_not_sum hs]
    rcases e.num_or with ⟨n, rfl⟩ | hn
    · exact collect_cons (0, n.value) 0
    · rw [letterTerms_of_term hn hs, constant_of_term hn hs, Finsupp.single_zero, zero_add]

/-- The terms of a canonical polynomial are its addends. -/
theorem IsPolynomial.addends_eq {e : Expr} (hp : e.IsPolynomial) (hc : e.Canonical) :
    e.addends = e.letterTerms.map fun p => (letterPowers p.1, p.2) := by
  cases hp with
  | monomial hm =>
    rcases e.num_or with ⟨n, rfl⟩ | hn
    · rfl
    · rw [addends_of_term hn hm.isSum, letterTerms_of_term hn hm.isSum,
        hm.powers_of_exponents hc hn]
      rfl
  | @sum age c summands hm =>
    cases hc with
    | sum _ _ ht _ form =>
      rw [addends, letterTerms, termCoefficients, List.map_map]
      refine congrArg _ (List.map_congr_left fun p hp => ?_)
      rw [Function.comp_apply, (hm p hp).powers_of_exponents (ht p hp) (form.term_not_num p hp),
        form.scale_eq_one p hp, mul_one]

/-- What is asked of the terms of a polynomial that are no numbers, of which the exponents are the
keys. -/
structure TermsForm (l : List ((String →₀ ℤ) × ℚ)) : Prop where
  distinct : (l.map Prod.fst).Nodup
  key_ne_zero : ∀ p ∈ l, p.1 ≠ 0
  ne_zero : ∀ p ∈ l, p.2 ≠ 0

theorem IsPolynomial.terms_form {e : Expr} (hp : e.IsPolynomial) (hc : e.Canonical) :
    TermsForm e.letterTerms := by
  have hnodup := hc.addends_nodup
  rw [hp.addends_eq hc, Multiset.map_coe, Multiset.coe_nodup, List.map_map] at hnodup
  have hdistinct : (e.letterTerms.map Prod.fst).Nodup := by
    refine List.Nodup.of_map letterPowers ?_
    rwa [List.map_map]
  suffices h : ∀ p ∈ e.letterTerms, p.1 ≠ 0 ∧ p.2 ≠ 0 from
    ⟨hdistinct, fun p hp => (h p hp).1, fun p hp => (h p hp).2⟩
  cases hp with
  | monomial hm =>
    rcases e.num_or with ⟨n, rfl⟩ | hn
    · exact List.forall_mem_nil _
    · rw [letterTerms_of_term hn hm.isSum]
      exact List.forall_mem_singleton.mpr ⟨hm.exponents_ne_zero hc hn, hm.scale_ne_zero hc hn⟩
  | sum age c hm =>
    cases hc with
    | sum _ _ ht _ form =>
      intro p hp
      obtain ⟨q, hq, rfl⟩ := List.mem_map.mp hp
      refine ⟨(hm q hq).exponents_ne_zero (ht q hq) (form.term_not_num q hq), fun h0 => ?_⟩
      rw [form.scale_eq_one q hq, mul_one] at h0
      exact ne_true_of_eq_false (form.coefficient_ne_zero q hq) (Num.isZero_iff.mpr h0)

theorem TermsForm.collect_zero {l : List ((String →₀ ℤ) × ℚ)} (form : TermsForm l) :
    collect (l : Multiset ((String →₀ ℤ) × ℚ)) 0 = 0 := by
  refine collect_apply_of_notMem fun hmem => ?_
  obtain ⟨p, hp, h0⟩ := List.mem_map.mp hmem
  exact form.key_ne_zero p hp h0

/-- A polynomial with a single exponent vector has a single term. -/
theorem TermsForm.length_le_one {l : List ((String →₀ ℤ) × ℚ)} (form : TermsForm l) {c q : ℚ}
    {v : String →₀ ℤ} (h : Finsupp.single 0 c + collect l = Finsupp.single v q) :
    l.length ≤ 1 ∧ (l.length = 1 → c = 0) := by
  have hkey : ∀ p ∈ l, p.1 = v := fun p hp => by
    by_contra hne
    have happly := DFunLike.congr_fun h p.1
    have hmem := collect_apply_of_mem (m := Multiset.ofList l) form.distinct hp
    rw [Finsupp.add_apply, hmem, Finsupp.single_eq_of_ne hne,
      Finsupp.single_eq_of_ne (form.key_ne_zero p hp), zero_add] at happly
    exact form.ne_zero p hp happly
  have hlength : l.length ≤ 1 := by
    have hsub : (l.map Prod.fst).Subperm [v] := List.Nodup.subperm form.distinct fun k hk => by
      obtain ⟨p, hp, rfl⟩ := List.mem_map.mp hk
      exact List.mem_singleton.mpr (hkey p hp)
    simpa using hsub.length_le
  refine ⟨hlength, fun h1 => ?_⟩
  obtain ⟨p, rfl⟩ := List.length_eq_one_iff.mp h1
  have hv : v ≠ 0 := hkey p List.mem_cons_self ▸ form.key_ne_zero p List.mem_cons_self
  have happly := DFunLike.congr_fun h 0
  rwa [Finsupp.add_apply, Finsupp.single_eq_same, form.collect_zero, add_zero,
    Finsupp.single_eq_of_ne hv.symm] at happly

/-- What is the same Laurent polynomial as a monomial is a monomial. -/
theorem IsPolynomial.isMonomial {e : Expr} (hp : e.IsPolynomial) (hc : e.Canonical)
    (v : String →₀ ℤ) (q : ℚ) (h : e.laurent = single v q) : e.IsMonomial := by
  have terms := hp.terms_form hc
  have hcard := congrArg Multiset.card (hp.addends_eq hc)
  rw [Multiset.coe_card, List.length_map] at hcard
  have hcoeff : Finsupp.single 0 e.constant + collect e.letterTerms = Finsupp.single v q := by
    rw [← coeff_laurent, h, AddMonoidAlgebra.coeff_single]
  obtain ⟨hlength, hconstant⟩ := terms.length_le_one hcoeff
  cases hp with
  | monomial hm => exact hm
  | @sum age c summands hm =>
    cases hc with
    | sum _ _ _ _ form =>
      obtain ⟨hne, hsingle⟩ := @SumForm.not_single age c summands form
      have hpos := Multiset.card_pos.mpr hne
      have h1 : (Expr.sum age c summands).letterTerms.length = 1 := by omega
      exact absurd (hconstant h1) (hsingle (hcard.trans h1))

/-- **Canonical form is complete for polynomials.**  Canonical polynomials are equal iff they are
the same Laurent polynomial. -/
theorem eq_iff_laurent {e e' : Expr} (hp : e.IsPolynomial) (hp' : e'.IsPolynomial)
    (hc : e.Canonical) (hc' : e'.Canonical) : (e == e') = true ↔ e.laurent = e'.laurent := by
  refine ⟨laurent_congr, fun h => ?_⟩
  have form := hp.terms_form hc
  have form' := hp'.terms_form hc'
  have hcoeff := congrArg AddMonoidAlgebra.coeff h
  rw [coeff_laurent, coeff_laurent] at hcoeff
  have hconstant : e.constant = e'.constant := by
    have happly := DFunLike.congr_fun hcoeff 0
    rwa [Finsupp.add_apply, Finsupp.add_apply, form.collect_zero, form'.collect_zero, add_zero,
      add_zero, Finsupp.single_eq_same, Finsupp.single_eq_same] at happly
  rw [hconstant, add_right_inj] at hcoeff
  -- The constant and the function of the coefficients determine the addends.
  refine hc.eq_of_addends hc' hconstant ?_
  have hterms : (e.letterTerms : Multiset ((String →₀ ℤ) × ℚ)) = e'.letterTerms :=
    collect_injective form.distinct form'.distinct form.ne_zero form'.ne_zero hcoeff
  rw [hp.addends_eq hc, hp'.addends_eq hc', ← Multiset.map_coe, ← Multiset.map_coe, hterms]

end Expr

end ExactAlgebra
