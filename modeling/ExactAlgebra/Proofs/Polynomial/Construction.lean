import ExactAlgebra.Proofs.Calculation
import ExactAlgebra.Proofs.Canonical.Draft
import ExactAlgebra.Proofs.Meaning.Draft
import ExactAlgebra.Proofs.Polynomial
import Mathlib.Tactic.Abel

/-!
# Constructions on polynomials

Powers of letters, products and quotients of monomials, and sums of monomials are polynomials again,
and the constructions agree with the ring of Laurent polynomials.

* `ofPower_power?`: numbers and variables are raised to integers.
* `ProductDraft.Letters`, `SumDraft.Monomials`: the invariants of the drafts.
* `productWith_laurent`, `ofSum_laurent`, `neg_laurent`: the constructions as operations of the
  ring.
-/

namespace ExactAlgebra

open Build ExactAlgebra.Expr
open AddMonoidAlgebra (single)

namespace Expr

/-! ## Powers -/

theorem laurent_num (n : Num) : (num n).laurent = single 0 n.value :=
  laurent_of_not_sum rfl

theorem exponents_var (x : String) : (var x).exponents = Finsupp.single x 1 := by
  rw [exponents, letters, Multiset.coe_singleton, collect_singleton]

theorem exponents_power (age : Nat) (x : String) (n : Num) :
    (power age (var x) (num n)).exponents = Finsupp.single x n.value.num := by
  rw [exponents, letters, Multiset.coe_singleton, collect_singleton, letterPower]

theorem laurent_var (x : String) : (var x).laurent = single (Finsupp.single x 1) 1 := by
  rw [laurent_of_not_sum rfl, monomial, exponents_var]
  rfl

theorem laurent_power (age : Nat) (x : String) (n : Num) :
    (power age (var x) (num n)).laurent = single (Finsupp.single x n.value.num) 1 := by
  rw [laurent_of_not_sum rfl, monomial, exponents_power]
  rfl

/-- Numbers that are raised to integers are worked out. -/
theorem toPower_power? (b : Num) {n : Num} (hn : n.isInteger = true) :
    Ensures (b.toPower n) (fun r => r.IsMonomial ∧
      Laurent.power? (num b).laurent n.value.num = some r.laurent) fun _ => True := by
  refine (Num.toPower_calculates (.inr (.inr hn))).mono ?_ fun _ _ => trivial
  rintro _ ⟨r, rfl, hr⟩
  have hpower : (0 ≤ n.value.num ∨ b.value ≠ 0) ∧ r.value = b.value ^ n.value.num := by
    rcases Partial.power?_cases hr with ⟨hb, hr⟩ | ⟨hb, hpos, hr⟩ | ⟨m, hb, hm, hr⟩
    · rw [hb, hr, one_zpow]
      exact ⟨.inr one_ne_zero, rfl⟩
    · have hnum : 0 < n.value.num := Rat.num_pos.mpr hpos
      rw [hb, hr, zero_zpow _ hnum.ne']
      exact ⟨.inl hnum.le, rfl⟩
    · rw [hr, hm, Rat.num_intCast]
      exact ⟨.inr hb, rfl⟩
  refine ⟨.num r, ?_⟩
  rw [laurent_num, laurent_num, Laurent.power?_single hpower.1, smul_zero, hpower.2]

/-- A variable is raised to an integer. -/
theorem letter_power? (x : String) {n : Num} (hn : n.isInteger = true) :
    Ensures (ofPower (.var x) (.num n)) (fun r => r.IsMonomial ∧
      Laurent.power? (var x).laurent n.value.num = some r.laurent) fun _ => True := by
  rw [ofPower_symbolic rfl, laurent_var, Laurent.power?_single (.inr one_ne_zero), one_zpow,
    Finsupp.smul_single, smul_eq_mul, mul_one]
  refine .ite (fun h0 => .pure ⟨.num _, ?_⟩) fun _ => .ite (fun h1 => .pure ⟨.var x, ?_⟩) fun _ =>
    Ensures.fresh.bind fun age _ => .pure ⟨.power age ⟨⟨x, rfl⟩, n, rfl, hn⟩, ?_⟩
  · rw [Num.isZero_iff.mp h0, Rat.num_zero, Finsupp.single_zero, one, laurent_num]
    rfl
  · rw [Num.isOne_iff.mp h1, Rat.num_one, laurent_var]
  · rw [laurent_power]

/-- Numbers and variables are raised to integers as Laurent polynomials are. -/
theorem ofPower_power? {b : Expr} (hb : b.isNum = true ∨ b.IsVariable) {n : Num}
    (hn : n.isInteger = true) : Ensures (ofPower b (.num n)) (fun r => r.IsMonomial ∧
      Laurent.power? b.laurent n.value.num = some r.laurent) fun _ => True := by
  rcases hb with hb | ⟨x, rfl⟩
  · cases b with
    | num b => exact toPower_power? b hn
    | _ => exact nomatch hb
  · exact letter_power? x hn

end Expr

/-! ## Products -/

/-- The sign as a factor of exponents. -/
def Sign.unit : Sign → ℤ
  | .plus => 1
  | .minus => -1

namespace ProductDraft

/-- All bases are variables, and all exponents are integers. -/
def Letters (d : ProductDraft) : Prop := d.exponents.All IsVariable IsInteger

noncomputable def entryExponents (entries : List (Expr × Expr)) : String →₀ ℤ :=
  collect (entries.map letterPower : List (String × ℤ))

noncomputable def vector (d : ProductDraft) : String →₀ ℤ := entryExponents d.exponents.entries

theorem entryExponents_cons (p : Expr × Expr) (entries : List (Expr × Expr)) :
    entryExponents (p :: entries) =
      Finsupp.single (letterPower p).1 (letterPower p).2 + entryExponents entries := by
  rw [entryExponents, List.map_cons, ← Multiset.cons_coe, collect_cons, entryExponents]

theorem entryExponents_perm {entries entries' : List (Expr × Expr)} (h : entries.Perm entries') :
    entryExponents entries = entryExponents entries' :=
  congrArg collect (Multiset.coe_eq_coe.mpr (h.map _))

theorem letterPower_var_num (x : String) (n : Num) :
    letterPower (.var x, .num n) = (x, n.value.num) := rfl

variable {sum : SignedTerms → Build Expr} {d : ProductDraft}

theorem num_add {m n : Num} (hm : m.isInteger = true) (hn : n.isInteger = true) {k : Num}
    (hk : k.value = m.value + n.value) :
    k.isInteger = true ∧ k.value.num = m.value.num + n.value.num := by
  have hvalue : k.value = ((m.value.num + n.value.num : ℤ) : ℚ) := by
    rw [hk, num_eq_of_isInteger hm, num_eq_of_isInteger hn]
    push_cast
    rfl
  rw [Num.isInteger_iff, hvalue]
  exact ⟨Rat.den_intCast _, Rat.num_intCast _⟩

theorem vector_erase {x : String} {n : Num} (h : d.exponents.get? (.var x) = some (.num n)) :
    d.vector =
      Finsupp.single x n.value.num + entryExponents (d.exponents.erase (.var x)).entries := by
  obtain ⟨k, hk, hperm⟩ := Ledger.perm_erase h
  rw [vector, entryExponents_perm hperm, entryExponents_cons,
    letterPower_congr hk (BEq.rfl : (num n == num n) = true),
    letterPower_var_num]

theorem vector_put (d : ProductDraft) (x : String) (n : Num) :
    entryExponents (d.exponents.put (.var x) (.num n)).entries =
      Finsupp.single x n.value.num + entryExponents (d.exponents.erase (.var x)).entries := by
  obtain ⟨k, hk, hperm⟩ := Ledger.put_perm d.exponents (.var x) (.num n)
  rw [entryExponents_perm hperm, entryExponents_cons,
    letterPower_congr hk (BEq.rfl : (num n == num n) = true),
    letterPower_var_num]

theorem vector_store (d : ProductDraft) (x : String) (n : Num) :
    entryExponents (d.exponents.store Expr.isZero (.var x) (.num n)).entries =
      Finsupp.single x n.value.num + entryExponents (d.exponents.erase (.var x)).entries := by
  rw [Ledger.store]
  split
  next h0 =>
    rw [Num.isZero_iff.mp h0, Rat.num_zero, Finsupp.single_zero, zero_add]
  next => exact d.vector_put x n

/-- An integer power of a variable adds to the exponents. -/
theorem enter_letter (h : d.Letters) (x : String) {n : Num} (hn : n.isInteger = true) :
    Ensures (d.enter sum (.var x) (.num n)) (fun d' => d'.Letters ∧
      d'.coefficient = d.coefficient ∧ d'.vector = d.vector + Finsupp.single x n.value.num)
      fun _ => True := by
  rw [enter_eq]
  obtain ⟨m, hm, hget, hvector⟩ : ∃ m : Num, m.isInteger = true ∧
      (d.exponents.get? (.var x)).getD .zero = .num m ∧ d.vector =
        Finsupp.single x m.value.num + entryExponents (d.exponents.erase (.var x)).entries := by
    cases hg : d.exponents.get? (.var x) with
    | some old =>
      obtain ⟨m, rfl, hm⟩ := h.get? hg
      exact ⟨m, hm, rfl, vector_erase hg⟩
    | none =>
      refine ⟨.zero, by decide, rfl, ?_⟩
      rw [(Ledger.get?_eq_none hg).2.2, show Num.zero.value = 0 from rfl, Rat.num_zero,
        Finsupp.single_zero, zero_add, vector]
  rw [hget]
  refine Ensures.bind (P := fun e => ∃ k, e = .num k ∧ k.value = m.value + n.value)
    ((Num.add_ensures _ _).bind fun k hk => .pure ⟨k, rfl, hk⟩) ?_
  rintro _ ⟨k, rfl, hk⟩
  obtain ⟨hi, hnum⟩ := num_add hm hn hk
  refine .pure ⟨h.store ⟨x, rfl⟩ fun _ => ⟨k, rfl, hi⟩, rfl, ?_⟩
  rw [vector, vector_store, hvector, hnum, Finsupp.single_add, add_right_comm]

theorem signedExponent_integer {n : Num} (hn : n.isInteger = true) (sign : Sign) :
    Ensures (signedExponent sum (.num n) sign) (fun e => ∃ m, e = .num m ∧ m.isInteger = true ∧
      m.value.num = sign.unit * n.value.num) fun _ => True := by
  cases sign with
  | plus => exact .pure ⟨n, rfl, hn, (one_mul _).symm⟩
  | minus =>
    refine (Num.negate_ensures n).bind fun m hm => .pure ⟨m, rfl, ?_, ?_⟩
    · rw [Num.isInteger_iff, hm, Rat.den_neg_eq_den, ← Num.isInteger_iff]
      exact hn
    · rw [hm, Rat.num_neg_eq_neg_num, Sign.unit, neg_one_mul]

theorem enter_signed_letter (h : d.Letters) (x : String) {n : Num} (hn : n.isInteger = true)
    (sign : Sign) : Ensures (do d.enter sum (.var x) (← signedExponent sum (.num n) sign))
      (fun d' => d'.Letters ∧ d'.coefficient = d.coefficient ∧
        d'.vector = d.vector + sign.unit • Finsupp.single x n.value.num) fun _ => True := by
  refine (signedExponent_integer hn sign).bind ?_
  rintro _ ⟨m, rfl, hm, hnum⟩
  rw [Finsupp.smul_single, smul_eq_mul, ← hnum]
  exact enter_letter h x hm

/-- The entries of a monomial add to the exponents with the sign of the monomial. -/
theorem enterAll_letters (h : d.Letters) {factors : List (Expr × Expr)}
    (hf : ∀ p ∈ factors, LetterPower p) (sign : Sign) :
    Ensures (d.enterAll sum sign factors) (fun d' => d'.Letters ∧
      d'.coefficient = d.coefficient ∧
      d'.vector = d.vector + sign.unit • entryExponents factors) fun _ => True := by
  induction factors generalizing d with
  | nil =>
    refine .pure ⟨h, rfl, ?_⟩
    rw [show entryExponents [] = 0 from rfl, smul_zero, add_zero]
  | cons p factors ih =>
    obtain ⟨b, e⟩ := p
    rw [List.forall_mem_cons] at hf
    obtain ⟨⟨⟨x, rfl⟩, n, rfl, hn⟩, hf⟩ := hf
    rw [enterAll, List.foldlM_cons]
    refine (enter_signed_letter h x hn sign).bind fun d₁ h₁ => (ih h₁.1 hf).imp
      fun d₂ h₂ => ⟨h₂.1, h₂.2.1.trans h₁.2.1, ?_⟩
    rw [h₂.2.2, h₁.2.2, entryExponents_cons, letterPower_var_num, smul_add, add_assoc]

theorem scale_letters (h : d.Letters) (n : Num) (sign : Sign) :
    Ensures (d.scale n sign) (fun d' => d'.Letters ∧
      d'.coefficient.value = d.coefficient.value * n.value ^ sign.unit ∧ d'.vector = d.vector ∧
      (sign = .minus → n.value ≠ 0)) fun _ => True := by
  cases sign with
  | plus =>
    exact (Num.multiply_ensures _ _).bind fun c hc =>
      .pure ⟨h, by rw [hc, Sign.unit, zpow_one], rfl, nofun⟩
  | minus =>
    refine Ensures.bind (P := fun c => c.value = d.coefficient.value / n.value ∧ n.value ≠ 0)
      ?_ fun c hc => .pure ⟨h, ?_, rfl, fun _ => hc.2⟩
    · rw [Num.divide_eq]
      exact .ite (fun _ => .throw trivial) fun h0 => (Num.new_ensures _).imp fun c hc =>
        ⟨hc.trans (Ratio.toRat_ofRat _), mt Num.isZero_iff.mpr h0⟩
    · rw [hc.1, Sign.unit, zpow_neg_one, div_eq_mul_inv]

/-- A monomial multiplies the draft or divides it; only what is not zero divides. -/
theorem absorb_monomial (h : d.Letters) {e : Expr} (he : e.IsMonomial) (sign : Sign) :
    Ensures (d.absorb sum e sign) (fun d' => d'.Letters ∧
      d'.coefficient.value = d.coefficient.value * e.scale ^ sign.unit ∧
      d'.vector = d.vector + sign.unit • e.exponents ∧ (sign = .minus → e.scale ≠ 0))
      fun _ => True := by
  have hletter : ∀ {d' : ProductDraft} {x : String} {k : ℤ}, e.scale = 1 →
      e.exponents = Finsupp.single x k → (d'.Letters ∧ d'.coefficient = d.coefficient ∧
        d'.vector = d.vector + sign.unit • Finsupp.single x k) → d'.Letters ∧
      d'.coefficient.value = d.coefficient.value * e.scale ^ sign.unit ∧
      d'.vector = d.vector + sign.unit • e.exponents ∧ (sign = .minus → e.scale ≠ 0) := by
    intro d' x k h1 hx hd
    rw [h1, hx, one_zpow, mul_one]
    exact ⟨hd.1, congrArg Num.value hd.2.1, hd.2.2, fun _ => one_ne_zero⟩
  cases he with
  | num n =>
    refine (scale_letters h n sign).imp fun d' hd => ⟨hd.1, hd.2.1, ?_, hd.2.2.2⟩
    rw [hd.2.2.1, show (num n).exponents = 0 from rfl, smul_zero, add_zero]
  | var x =>
    have hsign : sign.toNum.isInteger = true := by cases sign <;> decide
    have hnum : Finsupp.single x sign.toNum.value.num = sign.unit • Finsupp.single x 1 := by
      cases sign <;> simp [Sign.toNum, Sign.unit, Num.one, Num.negativeOne]
    refine (enter_letter h x hsign).imp fun d' hd => hletter rfl (exponents_var x) ?_
    rwa [← hnum]
  | power age hp =>
    obtain ⟨⟨y, rfl⟩, n, rfl, hn⟩ := hp
    exact (enter_signed_letter h y hn sign).imp fun d' hd =>
      hletter rfl (exponents_power age y n) hd
  | @product age c factors hf =>
    refine (scale_letters h c sign).bind fun d₁ h₁ => (enterAll_letters h₁.1 hf sign).imp
      fun d₂ h₂ => ⟨h₂.1, ?_, ?_, h₁.2.2.2⟩
    · rw [h₂.2.1, h₁.2.1]
      rfl
    · rw [h₂.2.2, h₁.2.2.1]
      rfl

/-- Monomials multiply the draft or divide it. -/
theorem absorb_monomials (h : d.Letters) {es : List Expr} (hes : ∀ e ∈ es, e.IsMonomial)
    (sign : Sign) : Ensures (es.foldlM (fun d e => d.absorb sum e sign) d) (fun d' => d'.Letters ∧
      d'.coefficient.value = d.coefficient.value * (es.map Expr.scale).prod ^ sign.unit ∧
      d'.vector = d.vector + sign.unit • (es.map Expr.exponents).sum ∧
      (sign = .minus → ∀ e ∈ es, e.scale ≠ 0)) fun _ => True := by
  induction es generalizing d with
  | nil =>
    refine .pure ⟨h, ?_, ?_, fun _ => List.forall_mem_nil _⟩
    · rw [List.map_nil, List.prod_nil, one_zpow, mul_one]
    · rw [List.map_nil, List.sum_nil, smul_zero, add_zero]
  | cons e es ih =>
    rw [List.forall_mem_cons] at hes
    rw [List.foldlM_cons]
    refine (absorb_monomial h hes.1 sign).bind fun d₁ h₁ => (ih h₁.1 hes.2).imp
      fun d₂ h₂ => ⟨h₂.1, ?_, ?_, fun hs => List.forall_mem_cons.mpr ⟨h₁.2.2.2 hs, h₂.2.2.2 hs⟩⟩
    · rw [h₂.2.1, h₁.2.1, List.map_cons, List.prod_cons, mul_zpow, mul_assoc]
    · rw [h₂.2.2.1, h₁.2.2.1, List.map_cons, List.sum_cons, smul_add, add_assoc]

theorem flatten_letters (h : d.Letters) (rounds : Nat) :
    d.flatten sum (rounds + 1) = return d := by
  have hnested : d.nested = [] := by
    refine List.eq_nil_iff_forall_not_mem.mpr fun b hb => ?_
    obtain ⟨e, he, hp, -⟩ := mem_nested hb
    obtain ⟨x, rfl⟩ := (h _ he).1
    exact nomatch hp
  rw [flatten, hnested]

/-- The node that the draft makes is the monomial under construction. -/
theorem collapse_letters (h : d.Letters) : Ensures d.collapse
    (fun e => e.IsMonomial ∧ e.laurent = single d.vector d.coefficient.value) fun _ => True := by
  refine .ite (fun h0 => .pure ⟨.num _, ?_⟩) fun _ => ?_
  · rw [Num.isZero_iff.mp h0, Expr.zero, laurent_num,
      show Num.zero.value = 0 from rfl, AddMonoidAlgebra.single_zero, AddMonoidAlgebra.single_zero]
  split
  next hd =>
    refine .pure ⟨.num _, ?_⟩
    rw [laurent_num, vector, hd]
    rfl
  next b e hd =>
    obtain ⟨⟨x, rfl⟩, n, rfl, hn⟩ := h (b, e) (by rw [hd]; exact List.mem_singleton_self _)
    have hvector : d.vector = Finsupp.single x n.value.num := by
      rw [vector, hd, entryExponents_cons, letterPower_var_num, show entryExponents [] = 0 from rfl,
        add_zero]
    refine .ite (fun h1 => ?_) fun _ => Ensures.fresh.bind fun age _ =>
      .pure ⟨.product age _ ?_, ?_⟩
    · refine (letter_power? x hn).imp fun r hr => ⟨hr.1, ?_⟩
      rw [laurent_var, Laurent.power?_single (.inr one_ne_zero), one_zpow, Finsupp.smul_single,
        smul_eq_mul, mul_one, Option.some.injEq] at hr
      rw [← hr.2, hvector, Num.isOne_iff.mp h1]
    · rw [← hd]
      exact h
    · rw [laurent_of_not_sum rfl, vector, hd]
      rfl
  next =>
    have hperm := Ledger.sorted_perm compareBases d.exponents
    refine Ensures.fresh.bind fun age _ => .pure ⟨.product age _ fun p hp => h p ?_, ?_⟩
    · exact hperm.mem_iff.mp hp
    · rw [laurent_of_not_sum rfl, vector, ← entryExponents_perm hperm]
      rfl

end ProductDraft

namespace Expr

/-- Monomials are multiplied and divided as Laurent polynomials are; only what is not zero
divides. -/
theorem productWith_laurent (sum : SignedTerms → Build Expr) {factors divisors : List Expr}
    (hf : ∀ e ∈ factors, e.IsMonomial) (hd : ∀ e ∈ divisors, e.IsMonomial) :
    Ensures (productWith sum factors divisors) (fun e => e.IsMonomial ∧
      (∀ e ∈ divisors, e.scale ≠ 0) ∧
      e.laurent = single ((factors.map exponents).sum - (divisors.map exponents).sum)
        ((factors.map scale).prod * ((divisors.map scale).prod)⁻¹)) fun _ => True := by
  have habsorb : Ensures (ProductDraft.empty.absorbAll sum factors divisors) (fun d => d.Letters ∧
      d.coefficient.value = (factors.map scale).prod * ((divisors.map scale).prod)⁻¹ ∧
      d.vector = (factors.map exponents).sum - (divisors.map exponents).sum ∧
      ∀ e ∈ divisors, e.scale ≠ 0) fun _ => True := by
    have hempty : ProductDraft.empty.Letters := .empty
    refine (ProductDraft.absorb_monomials hempty hf .plus).bind fun d₁ h₁ =>
      (ProductDraft.absorb_monomials h₁.1 hd .minus).imp fun d₂ h₂ =>
        ⟨h₂.1, ?_, ?_, h₂.2.2.2 rfl⟩
    · rw [h₂.2.1, h₁.2.1, show ProductDraft.empty.coefficient.value = 1 from rfl, Sign.unit,
        Sign.unit, zpow_one, zpow_neg_one, one_mul]
    · rw [h₂.2.2.1, h₁.2.2.1, show ProductDraft.empty.vector = 0 from rfl, Sign.unit, Sign.unit,
        one_smul, neg_one_smul, zero_add, sub_eq_add_neg]
  refine habsorb.bind fun d h => ?_
  rw [ProductDraft.finish, ProductDraft.rounds, ProductDraft.flatten_letters h.1, pure_bind]
  refine (ProductDraft.collapse_letters h.1).imp fun e he => ⟨he.1, h.2.2.2, ?_⟩
  rw [he.2, h.2.1, h.2.2.1]

end Expr

/-! ## Sums -/

namespace SumDraft

def Monomials (d : SumDraft) : Prop := d.coefficients.All IsMonomial fun _ => True

noncomputable def entryLaurent (entries : List (Expr × Num)) : Laurent :=
  (entries.map fun p => p.2.value • p.1.laurent).sum

noncomputable def laurent (d : SumDraft) : Laurent :=
  single 0 d.constant.value + entryLaurent d.coefficients.entries

theorem entryLaurent_cons (p : Expr × Num) (entries : List (Expr × Num)) :
    entryLaurent (p :: entries) = p.2.value • p.1.laurent + entryLaurent entries := by
  rw [entryLaurent, List.map_cons, List.sum_cons, entryLaurent]

theorem entryLaurent_perm {entries entries' : List (Expr × Num)} (h : entries.Perm entries') :
    entryLaurent entries = entryLaurent entries' := (h.map _).sum_eq

theorem laurent_sum (age : Nat) (c : Num) {summands : List (Expr × Num)}
    (hm : ∀ p ∈ summands, p.1.IsMonomial) :
    (Expr.sum age c summands).laurent = single 0 c.value + entryLaurent summands := by
  have hterm : ∀ p ∈ summands,
      single p.1.exponents (p.2.value * p.1.scale) = p.2.value • p.1.laurent := fun p hp => by
    rw [laurent_of_not_sum (hm p hp).isSum, monomial, AddMonoidAlgebra.smul_single, smul_eq_mul]
  rw [Expr.laurent, Expr.coefficients, List.map_cons, List.sum_cons, termCoefficients, List.map_map,
    entryLaurent]
  exact congrArg (single 0 c.value + ·) (congrArg List.sum (List.map_congr_left hterm))

variable {d : SumDraft}

theorem entryLaurent_erase {t : Expr} {c : Num} (h : d.coefficients.get? t = some c) :
    entryLaurent d.coefficients.entries =
      c.value • t.laurent + entryLaurent (d.coefficients.erase t).entries := by
  obtain ⟨k, hk, hperm⟩ := Ledger.perm_erase h
  rw [entryLaurent_perm hperm, entryLaurent_cons, laurent_congr hk]

theorem entryLaurent_store (d : SumDraft) (t : Expr) (c : Num) :
    entryLaurent (d.coefficients.store Num.isZero t c).entries =
      c.value • t.laurent + entryLaurent (d.coefficients.erase t).entries := by
  rw [Ledger.store]
  split
  next h0 => rw [Num.isZero_iff.mp h0, zero_smul, zero_add]
  next =>
    obtain ⟨k, hk, hperm⟩ := Ledger.put_perm d.coefficients t c
    rw [entryLaurent_perm hperm, entryLaurent_cons, laurent_congr hk]

/-- A monomial with a coefficient adds to the draft. -/
theorem enter_monomial (h : d.Monomials) {t : Expr} (ht : t.IsMonomial) (c : Num) :
    Ensures (d.enter t c) (fun d' => d'.Monomials ∧ d'.laurent = d.laurent + c.value • t.laurent)
      fun _ => True := by
  rw [enter_eq]
  have hentries : entryLaurent d.coefficients.entries =
      ((d.coefficients.get? t).getD .zero).value • t.laurent +
        entryLaurent (d.coefficients.erase t).entries := by
    cases hg : d.coefficients.get? t with
    | some old => exact entryLaurent_erase hg
    | none =>
      rw [(Ledger.get?_eq_none hg).2.2]
      exact (by rw [zero_smul, zero_add] :
        entryLaurent d.coefficients.entries = (0 : ℚ) • t.laurent + _)
  refine (Num.add_ensures _ _).bind fun x hx => .pure ⟨h.store ht fun _ => trivial, ?_⟩
  rw [laurent, laurent, entryLaurent_store, hentries, hx, add_smul]
  abel

theorem shift_laurent (h : d.Monomials) (n scale : Num) :
    Ensures (d.shift n scale) (fun d' => d'.Monomials ∧
      d'.laurent = d.laurent + scale.value • (num n).laurent) fun _ => True := by
  refine (Num.multiply_ensures _ _).bind fun m hm => (Num.add_ensures _ _).bind fun c hc =>
    .pure ⟨h, ?_⟩
  rw [laurent, laurent, hc, hm, laurent_num, AddMonoidAlgebra.smul_single, smul_eq_mul,
    AddMonoidAlgebra.single_add, mul_comm]
  abel

/-- The coefficient of a monomial is taken away. -/
theorem separate_monomial (age : Nat) (c : Num) {factors : List (Expr × Expr)}
    (hf : ∀ p ∈ factors, LetterPower p) : Ensures (separate age c factors) (fun p =>
      p.2.IsMonomial ∧ p.1.value • p.2.laurent = (product age c factors).laurent)
      fun _ => True := by
  have hlaurent : ∀ (age : Nat) (c : Num), (product age c factors).laurent =
      c.value • single (collect (factors.map letterPower : List (String × ℤ))) 1 := fun age c => by
    rw [laurent_of_not_sum rfl, AddMonoidAlgebra.smul_single, smul_eq_mul, mul_one]
    rfl
  unfold separate
  split
  next b e =>
    obtain ⟨⟨x, rfl⟩, n, rfl, hn⟩ := hf _ List.mem_cons_self
    refine (letter_power? x hn).bind fun r hr => .pure ⟨hr.1, ?_⟩
    rw [laurent_var, Laurent.power?_single (.inr one_ne_zero), one_zpow, Finsupp.smul_single,
      smul_eq_mul, mul_one, Option.some.injEq] at hr
    rw [hlaurent, ← hr.2, List.map_singleton, Multiset.coe_singleton, collect_singleton]
    rfl
  next =>
    refine .ite (fun h1 => .pure ⟨.product age c hf, ?_⟩) fun _ =>
      Ensures.fresh.bind fun age' _ => .pure ⟨.product age' .one hf, ?_⟩
    · exact one_smul ℚ _
    · rw [hlaurent, hlaurent, show Num.one.value = 1 from rfl, one_smul]

/-- A monomial with a scale adds to the draft. -/
theorem absorb_monomial (h : d.Monomials) {t : Expr} (ht : t.IsMonomial) (scale : Num) :
    Ensures (d.absorb t scale) (fun d' => d'.Monomials ∧
      d'.laurent = d.laurent + scale.value • t.laurent) fun _ => True := by
  cases ht with
  | num n => exact shift_laurent h n scale
  | var x => exact enter_monomial h (.var x) scale
  | power age hp => exact enter_monomial h (.power age hp) scale
  | product age c hf =>
    refine (separate_monomial age c hf).bind fun p hp => (Num.multiply_ensures _ _).bind fun k hk =>
      (enter_monomial h hp.1 k).imp fun d' hd => ⟨hd.1, ?_⟩
    rw [hd.2, hk, ← hp.2, smul_smul, mul_comm]

theorem absorbAll_monomials (h : d.Monomials) {terms : SignedTerms}
    (ht : ∀ p ∈ terms, p.1.IsMonomial) : Ensures (d.absorbAll terms) (fun d' => d'.Monomials ∧
      d'.laurent = d.laurent + (terms.map fun p => p.2.toNum.value • p.1.laurent).sum)
      fun _ => True := by
  induction terms generalizing d with
  | nil => exact .pure ⟨h, (add_zero _).symm⟩
  | cons p terms ih =>
    rw [List.forall_mem_cons] at ht
    rw [absorbAll, List.foldlM_cons]
    refine (absorb_monomial h ht.1 p.2.toNum).bind fun d₁ h₁ => (ih h₁.1 ht.2).imp
      fun d₂ h₂ => ⟨h₂.1, ?_⟩
    rw [h₂.2, h₁.2, List.map_cons, List.sum_cons, add_assoc]

theorem flatten_monomials (h : d.Monomials) (rounds : Nat) :
    d.flatten (rounds + 1) = return d := by
  have hnested : d.nested = [] := by
    refine List.eq_nil_iff_forall_not_mem.mpr fun t ht => ?_
    obtain ⟨c, hc, hs, -⟩ := mem_nested ht
    rw [(h _ hc).1.isSum] at hs
    exact nomatch hs
  rw [flatten, hnested]

/-- The node that the draft makes is the polynomial under construction. -/
theorem collapse_monomials {product : List Expr → Build Expr} (h : d.Monomials)
    (hproduct : ∀ (t : Expr) (c : Num), t.IsMonomial → Ensures (product [t, .num c])
      (fun e => e.IsMonomial ∧ e.laurent = c.value • t.laurent) fun _ => True) :
    Ensures (d.collapse product) (fun e => e.IsPolynomial ∧ e.laurent = d.laurent)
      fun _ => True := by
  have hm : ∀ p ∈ d.coefficients.entries, p.1.IsMonomial := fun p hp => (h p hp).1
  unfold collapse
  split
  next hd =>
    refine .pure ⟨.monomial (.num _), ?_⟩
    rw [laurent_num, laurent, hd]
    exact (add_zero _).symm
  next t c hd =>
    rw [hd] at hm
    have ht : t.IsMonomial := hm _ List.mem_cons_self
    refine .ite (fun h0 => (hproduct t c ht).imp fun e he => ⟨.monomial he.1, ?_⟩) fun _ =>
      Ensures.fresh.bind fun age _ => .pure ⟨.sum age _ hm, ?_⟩
    · rw [he.2, laurent, hd, Num.isZero_iff.mp h0,
        AddMonoidAlgebra.single_zero, zero_add, entryLaurent, List.map_singleton,
        List.sum_singleton]
    · rw [laurent_sum age _ hm, laurent, hd]
  next =>
    have hperm := Ledger.sorted_perm compareTerms d.coefficients
    have hsorted : ∀ p ∈ d.coefficients.sorted compareTerms, p.1.IsMonomial := fun p hp =>
      hm p (hperm.mem_iff.mp hp)
    refine Ensures.fresh.bind fun age _ => .pure ⟨.sum age _ hsorted, ?_⟩
    rw [laurent_sum age _ hsorted, laurent, entryLaurent_perm hperm]

end SumDraft

namespace Expr

/-- Monomials are added and subtracted as Laurent polynomials are. -/
theorem ofSum_laurent {terms : SignedTerms} (ht : ∀ p ∈ terms, p.1.IsMonomial) :
    Ensures (ofSum terms) (fun e => e.IsPolynomial ∧
      e.laurent = (terms.map fun p => p.2.toNum.value • p.1.laurent).sum) fun _ => True := by
  rw [ofSum, sumAt]
  have hempty : SumDraft.empty.Monomials := .empty
  have hzero : SumDraft.empty.laurent = 0 := by
    rw [SumDraft.laurent, show SumDraft.empty.constant.value = 0 from rfl,
      AddMonoidAlgebra.single_zero, zero_add]
    rfl
  refine (SumDraft.absorbAll_monomials hempty ht).bind fun d h => ?_
  rw [SumDraft.finish, SumDraft.rounds, SumDraft.flatten_monomials h.1, pure_bind]
  refine (SumDraft.collapse_monomials h.1 fun t c htm => ?_).imp fun e he => ⟨he.1, ?_⟩
  · have hfactors : ∀ e ∈ [t, .num c], e.IsMonomial := by simp [htm, IsMonomial.num]
    refine (productWith_laurent _ hfactors (List.forall_mem_nil _)).imp fun e he => ⟨he.1, ?_⟩
    rw [he.2.2, laurent_of_not_sum htm.isSum, monomial, AddMonoidAlgebra.smul_single]
    simp [mul_comm, scale, exponents, letters]
  · rw [he.2, h.2, hzero, zero_add]

/-- Monomials are negated as Laurent polynomials are. -/
theorem neg_laurent {e : Expr} (hm : e.IsMonomial) (hc : e.Canonical) :
    Ensures e.neg (fun r => r.Canonical ∧ r.IsMonomial ∧ r.laurent = -e.laurent)
      fun _ => True := by
  have hs : Ensures (ofSum [(e, .minus)])
      (fun r => r.Canonical ∧ r.IsMonomial ∧ r.laurent = -e.laurent) fun _ => True := by
    have hterms : ∀ p ∈ [(e, Sign.minus)], p.1.IsMonomial := by simpa using hm
    have hsum := ofSum_laurent hterms
    have hcanonical : Makes (ofSum [(e, .minus)]) := ofSum_canonical (by simpa using hc)
    refine (hcanonical.and hsum).mono (fun r hr => ?_) fun _ _ => trivial
    have hlaurent : r.laurent = -e.laurent := by
      rw [hr.2.2, List.map_singleton, List.sum_singleton]
      exact neg_one_smul ℚ _
    refine ⟨hr.1, hr.2.1.isMonomial hr.1 e.exponents (-e.scale) ?_, hlaurent⟩
    rw [hlaurent, laurent_of_not_sum hm.isSum, monomial, AddMonoidAlgebra.single_neg]
  cases hm with
  | num n =>
    refine (Num.negate_ensures n).bind fun m hm => .pure ⟨.ofNum m, .num m, ?_⟩
    rw [laurent_num, laurent_num, hm, AddMonoidAlgebra.single_neg]
  | _ => exact hs

end Expr

end ExactAlgebra
