import ExactAlgebra.Proofs.Canonical.Obtainable
import ExactAlgebra.Proofs.Grammar.Promises
import ExactAlgebra.Proofs.Grammar.Refinement
import ExactAlgebra.Proofs.Polynomial.Construction
import ExactAlgebra.Proofs.Written.Words

/-!
# Texts of polynomials

A text without brackets, with nothing but integers as exponents, is parsed to the Laurent polynomial
that it denotes.  As canonical form is complete for polynomials, two such texts are parsed to equal
expressions iff they denote the same Laurent polynomial.

* `nesting_of_readAs`: a text without brackets is read as a tree without brackets.
* `Factor.promises_laurent`, `Term.promises_laurent`, `Tree.promises_laurent`: what the parts of a
  tree are worked out to.
* `parse_laurent`: what a text is parsed to.
* `parse_eq_iff_laurent`: when two texts are parsed to equal expressions.
-/

namespace ExactAlgebra.Grammar

open Build Passes ExactAlgebra.Expr
open AddMonoidAlgebra (single)

/-! ## Texts without brackets -/

mutual

theorem Primary.nesting_of_writes (p : Primary Atom) {w : List Token} (h : p.Writes w)
    (hw : .opening ∉ w) : p.nesting = 0 := by
  cases p with
  | leaf a => rw [Primary.nesting]
  | group s =>
    rw [Primary.Writes] at h
    obtain ⟨w', -, rfl⟩ := h
    exact absurd List.mem_cons_self hw

theorem Factor.nesting_of_writes (f : Factor (Primary Atom)) {w : List Token} (h : f.Writes w)
    (hw : .opening ∉ w) : f.nesting = 0 := by
  cases f with
  | operand p =>
    rw [Factor.Writes] at h
    rw [Factor.nesting, Primary.nesting_of_writes p h hw]
  | power p negated f =>
    rw [Factor.Writes] at h
    obtain ⟨wp, signs, wf, hp, hf, -, rfl⟩ := h
    simp only [List.mem_append, List.mem_cons, not_or] at hw
    rw [Factor.nesting, Primary.nesting_of_writes p hp hw.1,
      Factor.nesting_of_writes f hf hw.2.2.2, Nat.max_self]

theorem Term.nesting_of_writes (t : Term (Factor (Primary Atom))) {w : List Token} (h : t.Writes w)
    (hw : .opening ∉ w) : t.nesting = 0 := by
  cases t with
  | factor f =>
    rw [Term.Writes] at h
    rw [Term.nesting, Factor.nesting_of_writes f h hw]
  | multiply t negated f =>
    rw [Term.Writes] at h
    obtain ⟨wt, wf, ht, hf, ⟨signs, -, rfl⟩ | ⟨-, rfl⟩⟩ := h
    · simp only [List.mem_append, List.mem_cons, not_or] at hw
      rw [Term.nesting, Term.nesting_of_writes t ht hw.1, Factor.nesting_of_writes f hf hw.2.2.2,
        Nat.max_self]
    · simp only [List.mem_append, not_or] at hw
      rw [Term.nesting, Term.nesting_of_writes t ht hw.1, Factor.nesting_of_writes f hf hw.2,
        Nat.max_self]
  | divide t negated f =>
    rw [Term.Writes] at h
    obtain ⟨wt, signs, wf, ht, hf, -, rfl⟩ := h
    simp only [List.mem_append, List.mem_cons, not_or] at hw
    rw [Term.nesting, Term.nesting_of_writes t ht hw.1, Factor.nesting_of_writes f hf hw.2.2.2,
      Nat.max_self]

theorem Tree.nesting_of_writes (s : Tree Atom) {w : List Token} (h : Tree.Writes s w)
    (hw : .opening ∉ w) : Tree.nesting s = 0 := by
  cases s with
  | term negated t =>
    rw [Tree.Writes] at h
    obtain ⟨signs, wt, ht, -, rfl⟩ := h
    simp only [List.mem_append, not_or] at hw
    rw [Tree.nesting, Term.nesting_of_writes t ht hw.2]
  | add s sign t =>
    rw [Tree.Writes] at h
    obtain ⟨ws, signs, wt, hs, ht, -, -, rfl⟩ := h
    simp only [List.mem_append, not_or] at hw
    rw [Tree.nesting, Tree.nesting_of_writes s hs hw.1, Term.nesting_of_writes t ht hw.2.2,
      Nat.max_self]

end

/-- A text without brackets is read as a tree without brackets. -/
theorem nesting_of_readAs {text : List Char} {s : Tree Atom} (h : ReadAs text s)
    (htext : '(' ∉ text) : Tree.nesting s = 0 := by
  obtain ⟨raw, k, hcut, hw⟩ := h
  refine Tree.nesting_of_writes s hw fun hopening => htext ?_
  rcases List.mem_append.mp hopening with hraw | hclosing
  · have hmem : '(' ∈ Text.dropBlanks text := by
      rw [← hcut.pieces]
      exact List.mem_flatMap.mpr ⟨_, hraw, List.mem_singleton_self _⟩
    exact List.mem_of_mem_filter hmem
  · exact nomatch List.eq_of_mem_replicate hclosing

/-! ## What the parts are worked out to -/

section Parts

variable (check : Nat → Build Unit)

/-- No fault is excluded. -/
abbrev AnyFault : Fault → Prop := fun _ => True

def IsTerm (e : Expr) : Prop := e.Canonical ∧ e.IsMonomial

theorem signedOperand_laurent (negated : Bool) {e : Expr} (h : IsTerm e) :
    Ensures (signedOperand negated e)
      (fun r => IsTerm r ∧ r.laurent = negateIf negated e.laurent) AnyFault := by
  cases negated with
  | false => exact .pure ⟨h, rfl⟩
  | true => exact (neg_laurent h.2 h.1).imp fun r hr => ⟨⟨hr.1, hr.2.1⟩, hr.2.2⟩

theorem build_laurent (a : Atom) : Ensures a.build (fun e => IsTerm e ∧
    (e.isNum = true ∨ e.IsVariable) ∧ e.laurent = Atom.laurent a) AnyFault := by
  cases a with
  | number n =>
    rw [Atom.build_number]
    refine (Num.new_ensures _).bind fun m hm => .pure ⟨⟨.ofNum m, .num m⟩, .inl rfl, ?_⟩
    rw [laurent_num, hm, Ratio.toRat_ofRat, Atom.laurent]
  | «variable» name =>
    refine .pure ⟨⟨.var _, .var _⟩, .inr ⟨_, rfl⟩, ?_⟩
    rw [laurent_var, Atom.laurent]

theorem build_numeral (n : Numeral) : Ensures (Atom.number n).build
    (fun e => ∃ m, e = .num m ∧ m.value = n.value) AnyFault := by
  rw [Atom.build_number]
  exact (Num.new_ensures _).bind fun m hm => .pure ⟨m, rfl, hm.trans (Ratio.toRat_ofRat _)⟩

/-- A factor without brackets is worked out to the Laurent polynomial that it denotes. -/
theorem Factor.promises_laurent {f : Factor (Primary Atom)} (hn : f.nesting = 0)
    (hp : f.HasIntegerPower) :
    f.Promises check AnyFault (Primary.Promises check AnyFault (Atom.Promises AnyFault))
      fun e => IsTerm e ∧ f.laurent? = some e.laurent := by
  cases f with
  | operand p =>
    cases p with
    | group s => rw [Factor.nesting, Primary.nesting] at hn; cases hn
    | leaf a =>
      refine .operand (.leaf ((build_laurent a).imp fun e he => ⟨he.1, ?_⟩))
      rw [Factor.laurent?, Primary.laurent?, he.2.2]
  | power p negated f =>
    cases p with
    | group s => rw [Factor.nesting, Primary.nesting] at hn; simp at hn
    | leaf a =>
      obtain ⟨k, hk⟩ := Option.isSome_iff_exists.mp hp
      obtain ⟨n, rfl, hden, rfl⟩ : ∃ n : Numeral, f = .operand (.leaf (.number n)) ∧
          n.value.den = 1 ∧ k = if negated then -n.value.num else n.value.num := by
        unfold Factor.integer? at hk
        split at hk
        next n =>
          split at hk
          next hden => exact ⟨n, rfl, hden, (Option.some.inj hk).symm⟩
          next => cases hk
        next => cases hk
      refine .power (.leaf (build_laurent a)) (.operand (.leaf (build_numeral n))) ?_
      rintro b _ ⟨hterm, hb, hlaurent⟩ ⟨m, rfl, hm⟩
      have hsigned : Ensures (signedOperand negated (.num m)) (fun e => ∃ i, e = .num i ∧
          i.isInteger = true ∧ i.value.num = if negated then -n.value.num else n.value.num)
          AnyFault := by
        cases negated with
        | false =>
          exact .pure ⟨m, rfl, Num.isInteger_iff.mpr (hm ▸ hden), by rw [hm]; rfl⟩
        | true =>
          refine (Num.negate_ensures m).bind fun i hi => .pure ⟨i, rfl, ?_, ?_⟩
          · rw [Num.isInteger_iff, hi, Rat.neg_den, hm, hden]
          · rw [hi, Rat.neg_num, hm]
            rfl
      refine hsigned.bind ?_
      rintro _ ⟨i, rfl, hi, hnum⟩
      have hpower : Ensures (ofPower b (.num i)) (fun r => IsTerm r ∧
          Laurent.power? b.laurent i.value.num = some r.laurent) AnyFault :=
        ((ofPower_canonical hterm.1 (.ofNum i)).and (ofPower_power? hb hi)).mono
          (fun r hr => ⟨⟨hr.1, hr.2.1⟩, hr.2.2⟩) fun _ _ => trivial
      refine hpower.bind fun r hr => (ensures_true (check r.height)).bind fun _ _ =>
        .pure ⟨hr.1, ?_⟩
      rw [Factor.laurent?, Primary.laurent?, hk, ← hlaurent, ← hr.2, hnum]
      rfl

/-- A product of monomials is worked out to their product as Laurent polynomials. -/
theorem product_laurent {factors divisors : List Expr} (hf : ∀ e ∈ factors, IsTerm e)
    (hd : ∀ e ∈ divisors, IsTerm e) : Ensures (productOf factors divisors) (fun e => IsTerm e ∧
      (∀ e ∈ divisors, e.scale ≠ 0) ∧
      e.laurent = single ((factors.map exponents).sum - (divisors.map exponents).sum)
        ((factors.map scale).prod * ((divisors.map scale).prod)⁻¹)) AnyFault := by
  unfold productOf
  split
  next e =>
    have he : IsTerm e := hf e List.mem_cons_self
    refine .pure ⟨he, List.forall_mem_nil _, ?_⟩
    rw [laurent_of_not_sum he.2.isSum, monomial]
    simp
  next =>
    have hcanonical : Makes (ofProduct factors divisors) :=
      ofProduct_canonical (fun e he => (hf e he).1) fun e he => (hd e he).1
    have hlaurent := productWith_laurent (sumAt (depthOf (factors ++ divisors)))
      (fun e he => (hf e he).2) fun e he => (hd e he).2
    exact (hcanonical.and hlaurent).mono (fun e he => ⟨⟨he.1, he.2.1⟩, he.2.2⟩) fun _ _ => trivial

/-- The factors and the divisors of the term are monomials, and if no divisor is zero then the
quotient of their products is the Laurent polynomial that the term denotes. -/
def Term.Collected (t : Term (Factor (Primary Atom))) (factors divisors : List Expr) : Prop :=
  (∀ e ∈ factors, IsTerm e) ∧ (∀ e ∈ divisors, IsTerm e) ∧
    ((∀ e ∈ divisors, e.scale ≠ 0) → t.laurent? =
      some (single ((factors.map exponents).sum - (divisors.map exponents).sum)
        ((factors.map scale).prod * ((divisors.map scale).prod)⁻¹)))

theorem negateIf_laurent {negated : Bool} {e r : Expr} (hr : IsTerm r)
    (h : r.laurent = negateIf negated e.laurent) :
    negateIf negated e.laurent = single r.exponents r.scale := by
  rw [← h, laurent_of_not_sum hr.2.isSum, monomial]

namespace Term.Collected

variable {t : Term (Factor (Primary Atom))} {f : Factor (Primary Atom)} {negated : Bool}
  {factors divisors : List Expr} {e r : Expr}

theorem multiply (h : t.Collected factors divisors) (hf : f.laurent? = some e.laurent)
    (hr : IsTerm r) (hlaurent : r.laurent = negateIf negated e.laurent) :
    (Term.multiply t negated f).Collected (factors ++ [r]) divisors := by
  obtain ⟨hfactors, hdivisors, ht⟩ := h
  refine ⟨List.forall_mem_append.mpr ⟨hfactors, by simpa using hr⟩, hdivisors, ?_⟩
  intro h0
  rw [Term.laurent?, ht h0, hf]
  simp only [Option.bind_eq_bind, Option.bind_some, Option.pure_def, Option.some.injEq]
  rw [negateIf_laurent hr hlaurent, AddMonoidAlgebra.single_mul_single]
  simp only [List.map_append, List.sum_append, List.prod_append, List.map_singleton,
    List.sum_singleton, List.prod_singleton]
  congr 1
  · abel
  · ring

theorem divide (h : t.Collected factors divisors) (hf : f.laurent? = some e.laurent)
    (hr : IsTerm r) (hlaurent : r.laurent = negateIf negated e.laurent) :
    (Term.divide t negated f).Collected factors (divisors ++ [r]) := by
  obtain ⟨hfactors, hdivisors, ht⟩ := h
  refine ⟨hfactors, List.forall_mem_append.mpr ⟨hdivisors, by simpa using hr⟩, ?_⟩
  intro h0
  rw [List.forall_mem_append, List.forall_mem_singleton] at h0
  rw [Term.laurent?, ht h0.1, hf]
  simp only [Option.bind_eq_bind, Option.bind_some, Option.pure_def]
  rw [negateIf_laurent hr hlaurent, Laurent.inverse?_single h0.2, Option.bind_some,
    AddMonoidAlgebra.single_mul_single]
  simp only [List.map_append, List.sum_append, List.prod_append, List.map_singleton,
    List.sum_singleton, List.prod_singleton, mul_inv]
  congr 2
  · abel
  · ring

end Term.Collected

/-- The operands of a term without brackets are worked out to monomials. -/
theorem Term.promises_laurent {t : Term (Factor (Primary Atom))} (hn : t.nesting = 0)
    (hp : ∀ f ∈ t.leaves, f.HasIntegerPower) :
    t.Promises AnyFault (Factor.Promises check AnyFault
      (Primary.Promises check AnyFault (Atom.Promises AnyFault))) t.Collected := by
  induction t with
  | factor f =>
    rw [Term.nesting] at hn
    refine .factor (Factor.promises_laurent check hn (hp f List.mem_cons_self)) fun e he => ?_
    refine ⟨by simpa using he.1, List.forall_mem_nil _, fun _ => ?_⟩
    rw [Term.laurent?, he.2, laurent_of_not_sum he.1.2.isSum, monomial]
    simp
  | multiply t negated f ih =>
    rw [Term.nesting, Nat.max_eq_zero_iff] at hn
    rw [Term.leaves, List.forall_mem_append] at hp
    refine .multiply (ih hn.1 hp.1)
      (Factor.promises_laurent check hn.2 (hp.2 f List.mem_cons_self)) ?_
    intro factors divisors e ht he
    exact (signedOperand_laurent negated he.1).imp fun r hr => ht.multiply he.2 hr.1 hr.2
  | divide t negated f ih =>
    rw [Term.nesting, Nat.max_eq_zero_iff] at hn
    rw [Term.leaves, List.forall_mem_append] at hp
    refine .divide (ih hn.1 hp.1)
      (Factor.promises_laurent check hn.2 (hp.2 f List.mem_cons_self)) ?_
    intro factors divisors e ht he
    exact (signedOperand_laurent negated he.1).imp fun r hr => ht.divide he.2 hr.1 hr.2

/-- The terms are monomials, and the Laurent polynomial that the tree denotes is their sum. -/
def Tree.Added (s : Tree Atom) (terms : SignedTerms) : Prop := (∀ p ∈ terms, IsTerm p.1) ∧
  Tree.laurent? s = some (terms.map fun p => p.2.toNum.value • p.1.laurent).sum

theorem product_collected {t : Term (Factor (Primary Atom))} {factors divisors : List Expr}
    (h : t.Collected factors divisors) : Ensures (productOf factors divisors)
      (fun e => IsTerm e ∧ t.laurent? = some e.laurent) AnyFault :=
  (product_laurent h.1 h.2.1).imp fun e he => ⟨he.1, by rw [he.2.2, h.2.2 he.2.1]⟩

theorem negateIf_eq_smul (sign : Sign) (p : Laurent) :
    negateIf (sign = .minus) p = sign.toNum.value • p := by
  cases sign with
  | plus => exact (one_smul ℚ p).symm
  | minus => exact (neg_one_smul ℚ p).symm

/-- The terms of a tree without brackets are worked out to monomials. -/
theorem Tree.promises_laurent {s : Tree Atom} (hn : Tree.nesting s = 0)
    (hp : Tree.IntegerPowers s) :
    Tree.Promises check AnyFault (Atom.Promises AnyFault) s (Tree.Added s) := by
  induction s with
  | term negated t =>
    rw [Tree.nesting] at hn
    refine .term (Term.promises_laurent check hn hp) fun factors divisors h =>
      (product_collected h).imp fun e he => ⟨by simpa using he.1, ?_⟩
    have hsign : negateIf negated e.laurent = (signIf negated).toNum.value • e.laurent := by
      rw [← negateIf_eq_smul]
      cases negated <;> rfl
    rw [Tree.laurent?, he.2, List.map_singleton, List.sum_singleton, ← hsign]
    rfl
  | add s sign t ih =>
    rw [Tree.nesting, Nat.max_eq_zero_iff] at hn
    rw [Tree.IntegerPowers, Sum.leaves, List.forall_mem_append] at hp
    refine .add (ih hn.1 hp.1) (Term.promises_laurent check hn.2 hp.2)
      fun terms factors divisors hs h => (product_collected h).imp fun e he => ⟨?_, ?_⟩
    · exact List.forall_mem_append.mpr ⟨hs.1, by simpa using he.1⟩
    · rw [Tree.laurent?, hs.2, he.2, List.map_append, List.sum_append, List.map_singleton,
        List.sum_singleton, ← negateIf_eq_smul]
      rfl

/-- A sum of monomials is worked out to their sum as Laurent polynomials. -/
theorem checkedSum_laurent {s : Tree Atom} {terms : SignedTerms} (h : Tree.Added s terms) :
    Ensures (checkedSum check terms) (fun e => e.Canonical ∧ e.IsPolynomial ∧
      Tree.laurent? s = some e.laurent) AnyFault := by
  have hsum : Ensures (sumOf terms) (fun e => e.Canonical ∧ e.IsPolynomial ∧
      Tree.laurent? s = some e.laurent) AnyFault := by
    rw [h.2]
    unfold sumOf
    split
    next e =>
      have he : IsTerm e := h.1 _ List.mem_cons_self
      refine .pure ⟨he.1, .monomial he.2, ?_⟩
      rw [List.map_singleton, List.sum_singleton, ← negateIf_eq_smul]
      rfl
    next =>
      have hcanonical : Makes (ofSum terms) := ofSum_canonical fun p hp => (h.1 p hp).1
      exact (hcanonical.and (ofSum_laurent fun p hp => (h.1 p hp).2)).mono
        (fun e he => ⟨he.1, he.2.1, by rw [he.2.2]⟩) fun _ _ => trivial
  exact hsum.bind fun e he => (ensures_true (check e.height)).bind fun _ _ => .pure he

end Parts

/-! ## Parsing -/

/-- **A text without brackets, with integers as exponents, is parsed to the Laurent polynomial that
it denotes.** -/
theorem parse_laurent {source : String} {s : Tree Atom} (hs : ReadAs source.toList s)
    (htext : '(' ∉ source.toList) (hp : Tree.IntegerPowers s) (limit : Int) :
    Ensures (Expr.parse limit source) (fun e => e.Canonical ∧ e.IsPolynomial ∧
      Tree.laurent? s = some e.laurent) AnyFault := by
  have hn := nesting_of_readAs hs htext
  rw [parse_eq_actUnder (tokenize_of_readAs hs)]
  exact actUnder_ensures (fun _ _ => ensures_true _) (Tree.promises_laurent _ hn hp) hn.le
    fun terms h => checkedSum_laurent _ h

/-- **Canonical form is complete for bracket-free polynomials.**  Two texts without brackets, with
integers as exponents, that are both parsed are parsed to equal expressions iff they denote the same
Laurent polynomial. -/
theorem parse_eq_iff_laurent {source source' : String} {s s' : Tree Atom}
    (hs : ReadAs source.toList s) (hs' : ReadAs source'.toList s') (htext : '(' ∉ source.toList)
    (htext' : '(' ∉ source'.toList) (hp : Tree.IntegerPowers s) (hp' : Tree.IntegerPowers s')
    {limit limit' : Int} {σ σ' : Supply} {e e' : Expr} (he : (Expr.parse limit source σ).1 = .ok e)
    (he' : (Expr.parse limit' source' σ').1 = .ok e') :
    ∃ p p', Tree.laurent? s = some p ∧ Tree.laurent? s' = some p' ∧
      ((e == e') = true ↔ p = p') := by
  obtain ⟨hc, hpoly, hlaurent⟩ := (parse_laurent hs htext hp limit).of_fst he
  obtain ⟨hc', hpoly', hlaurent'⟩ := (parse_laurent hs' htext' hp' limit').of_fst he'
  exact ⟨_, _, hlaurent, hlaurent', eq_iff_laurent hpoly hpoly' hc hc'⟩

/-- The tree of `xy^-2*3/x-y/4`. -/
def quotientTree : Tree Atom :=
  .add (.term false (.divide (.multiply (.multiply (.factor (.operand (.leaf (.variable 'x'))))
      false (.power (.leaf (.variable 'y')) true (.operand (.leaf (.number ⟨['2'], none⟩)))))
      false (.operand (.leaf (.number ⟨['3'], none⟩)))) false (.operand (.leaf (.variable 'x')))))
    .minus (.divide (.factor (.operand (.leaf (.variable 'y')))) false
      (.operand (.leaf (.number ⟨['4'], none⟩))))

/-- The tree of `-.25y+3/y^2`. -/
def decimalTree : Tree Atom :=
  .add (.term true (.multiply (.factor (.operand (.leaf (.number ⟨[], some ['2', '5']⟩)))) false
      (.operand (.leaf (.variable 'y')))))
    .plus (.divide (.factor (.operand (.leaf (.number ⟨['3'], none⟩)))) false
      (.power (.leaf (.variable 'y')) false (.operand (.leaf (.number ⟨['2'], none⟩)))))

/-- The texts `xy^-2*3/x-y/4` and `-.25y+3/y^2` denote the same Laurent polynomial. -/
theorem parse_eq_iff_laurent_quotient :
    ∃ p, Tree.laurent? quotientTree = some p ∧ Tree.laurent? decimalTree = some p := by
  obtain ⟨e, e', he, he', heq⟩ : ∃ e e', (Expr.parse 9 "xy^-2*3/x-y/4" .initial).1 = .ok e ∧
      (Expr.parse 9 "-.25y+3/y^2" .initial).1 = .ok e' ∧ (e == e') = true :=
    ⟨_, _, by cbv, by cbv, by cbv⟩
  have htwo : (⟨['2'], none⟩ : Numeral).value.den = 1 := by cbv
  have hpowers : Tree.IntegerPowers quotientTree ∧ Tree.IntegerPowers decimalTree := by
    constructor <;> simp [Tree.IntegerPowers, quotientTree, decimalTree, Sum.leaves, Term.leaves,
      Factor.HasIntegerPower, Factor.integer?, htwo]
  obtain ⟨p, p', hp, hp', hiff⟩ := parse_eq_iff_laurent (readAs_of_tokenize (by cbv))
    (readAs_of_tokenize (by cbv)) (by decide) (by decide) hpowers.1 hpowers.2 he he'
  exact ⟨p, hp, by rw [hp', hiff.mp heq]⟩

end ExactAlgebra.Grammar
