import ExactAlgebra.Proofs.Content.Construction
import ExactAlgebra.Proofs.Printed.Height
import ExactAlgebra.Proofs.Printed.Names
import ExactAlgebra.Proofs.Printed.Settled
import ExactAlgebra.Proofs.Printed.Writing

/-!
# Printed forms are parsed back

The actions on the printed tree of a settled expression build the expression again.  Each factor of
a printed term is worked out to an expression with the powers that it prints, each term to one with
the content that it prints, and a whole tree to one with the content of the expression, which is
enough to tell it.

* `Run`, `Row`: the powers that some factors stand for, and the content that some terms stand for.
* `rebuilds`: the printed tree of an expression stands for the expression.
* `parse_text`: the printed form of a settled expression is parsed to the expression.
-/

namespace ExactAlgebra

open Build Grammar Partial Passes ExactAlgebra.Expr

namespace Expr

/-! ## What parts are worked out to -/

def IsNumber (q : ℚ) (r : Expr) : Prop := ∃ n, r = .num n ∧ n.value = q

theorem IsNumber.hasPowers {q : ℚ} {r : Expr} (h : IsNumber q r) : HasPowers q 0 r := by
  obtain ⟨n, rfl, hn⟩ := h
  exact ⟨.num n, hn, rfl⟩

theorem IsNumber.hasContent {q : ℚ} {r : Expr} (h : IsNumber q r) : HasContent (q, 0) r := by
  obtain ⟨n, rfl, hn⟩ := h
  exact ⟨.num n, by rw [content_num, hn]⟩

/-- A product of factors has their powers. -/
theorem Multiplies.product {q : ℚ} {M : Multiset (ℕ × ℕ)} {factors divisors : List Expr}
    (h : Multiplies q M factors divisors) (hq : 0 < q) (hM : (M.map Prod.fst).Nodup) :
    Ensures (productOf factors divisors) (HasPowers q M) NoFault := by
  obtain ⟨hf, hdivisors, hscale, hpowers⟩ := h
  unfold productOf
  split
  next e =>
    rw [List.map_singleton, List.prod_singleton] at hscale
    rw [List.map_singleton, List.sum_singleton] at hpowers
    exact .pure ⟨hf e List.mem_cons_self, hscale, hpowers⟩
  next =>
    subst hdivisors
    exact ofProduct_powers ⟨hf, rfl, hscale, hpowers⟩ hq.ne' hM

/-- A sum of terms is the expression that has their content. -/
theorem Adds.sum {e : Expr} (hc : e.Canonical) {terms : SignedTerms} (h : Adds e.content terms) :
    Ensures (sumOf terms) (Copies e) NoFault := by
  obtain ⟨ht, hcontent⟩ := h
  unfold sumOf
  split
  next r =>
    rw [totalContent_single] at hcontent
    have hr := (ht _ List.mem_cons_self).canonical
    exact .pure ⟨hr, hr.eq_of_content hc hcontent⟩
  next => exact ofSum_copies hc ⟨ht, hcontent⟩

end Expr

/-! ## Promises of printed trees -/

section Promises

variable (check : Nat → Build Unit)

abbrev Grammar.Primary.Gives (p : Primary Atom) (P : Expr → Prop) : Prop :=
  p.Promises check NoFault (Atom.Promises NoFault) P

abbrev Grammar.Factor.Gives (f : Factor (Primary Atom)) (P : Expr → Prop) : Prop :=
  f.Promises check NoFault (Primary.Promises check NoFault (Atom.Promises NoFault)) P

abbrev Grammar.Term.Collects (t : Grammar.Term (Factor (Primary Atom)))
    (J : List Expr → List Expr → Prop) : Prop :=
  t.Promises NoFault (Factor.Promises check NoFault
    (Primary.Promises check NoFault (Atom.Promises NoFault))) J

def Grammar.Term.Gives (t : Grammar.Term (Factor (Primary Atom))) (P : Expr → Prop) : Prop :=
  t.Collects check fun factors divisors => Ensures (productOf factors divisors) P NoFault

abbrev Grammar.Tree.Gives (s : Grammar.Tree Atom) (J : SignedTerms → Prop) : Prop :=
  Tree.Promises check NoFault (Atom.Promises NoFault) s J

variable {check} {N : ℕ} (hcheck : ∀ n ≤ N, Ensures (check n) (fun _ => True) NoFault)

theorem Grammar.Term.Gives.factor {f : Factor (Primary Atom)} {P : Expr → Prop}
    (h : f.Gives check P) :
    (Term.factor f).Gives check P := Term.Promises.factor h fun _ he => .pure he

/-! ### Numbers -/

theorem natural_gives (n : ℕ) : (natural n).Gives check (IsNumber n) := by
  refine .leaf ?_
  rw [Atom.Promises, Atom.build_number]
  refine (Num.new_ensures _).bind fun m hm => .pure ⟨m, rfl, hm.trans ?_⟩
  rw [Ratio.toRat_ofRat, Numeral.value_ofNat]

/-- The quotient of two natural numbers is worked out. -/
theorem ofProduct_quotient {q : ℚ} {m n : Num} (hm : m.value = q.num.natAbs)
    (hn : n.value = q.den) : Ensures (ofProduct [.num m] [.num n]) (IsNumber |q|) NoFault := by
  have hden : (q.den : ℚ) ≠ 0 := Nat.cast_ne_zero.mpr q.den_nz
  have hvalue : ([m].map fun n => some n.value).prod *
      inverse ([n].map fun n => some n.value).prod = some |q| := by
    rw [List.map_singleton, List.prod_singleton, List.map_singleton, List.prod_singleton, hm, hn,
      inverse_some hden, some_mul_some, Rat.abs_def, Rat.divInt_eq_div,
      div_eq_mul_inv]
    rfl
  have hcalculates := ofProduct_calculates [m] [n]
  rw [hvalue] at hcalculates
  refine hcalculates.mono ?_ fun e he => nomatch he.1
  rintro r ⟨k, rfl, hk⟩
  exact ⟨k, rfl, (Option.some.inj hk).symm⟩

theorem quotient_gives (q : ℚ) : (quotient q).Gives check (IsNumber |q|) := by
  rw [quotient]
  split
  next hden =>
    rw [← natAbs_num hden]
    exact .factor (.operand (natural_gives _))
  next hden =>
    have hnumerator : (Term.factor (.operand (natural q.num.natAbs))).Collects check
        fun factors divisors => ∃ m, factors = [.num m] ∧ divisors = [] ∧
          m.value = q.num.natAbs := by
      refine .factor (.operand (natural_gives _)) ?_
      rintro _ ⟨m, rfl, hm⟩
      exact ⟨m, rfl, rfl, hm⟩
    refine Term.Promises.divide hnumerator (.operand (natural_gives q.den)) ?_
    rintro _ _ _ ⟨m, rfl, rfl, hm⟩ ⟨n, rfl, hn⟩
    exact .pure (ofProduct_quotient hm hn)

include hcheck in
theorem magnitude_gives (q : ℚ) : (magnitude q).Gives check (IsNumber |q|) := by
  rw [magnitude]
  split
  next hden =>
    rw [← natAbs_num hden]
    exact natural_gives _
  next hden =>
    have hquotient : Tree.Gives check (.term false (quotient q))
        fun terms => ∃ n, terms = [(.num n, .plus)] ∧ n.value = |q| := by
      refine .term (quotient_gives q) fun _ _ h => h.imp ?_
      rintro _ ⟨n, rfl, hn⟩
      exact ⟨n, rfl, hn⟩
    refine .group hquotient ?_
    rintro _ ⟨n, rfl, hn⟩
    have hsum : Ensures (sumOf [(.num n, .plus)]) (fun r => r = .num n) NoFault := .pure rfl
    refine hsum.bind ?_
    rintro _ rfl
    exact (hcheck 0 (Nat.zero_le N)).bind fun _ _ => .pure ⟨n, rfl, hn⟩

/-! ### Groups and powers -/

include hcheck in
/-- A group is worked out to the expression with its content. -/
theorem group_gives {s : Grammar.Tree Atom} {e : Expr} (hc : e.Canonical) (hN : e.height ≤ N)
    (h : Tree.Gives check s (Adds e.content)) : (Primary.group s).Gives check (Copies e) :=
  .group h fun _ hterms => (Adds.sum hc hterms).bind fun _ hr =>
    (hcheck _ (height_congr hr.2 ▸ hN)).bind fun _ _ => .pure hr

theorem letter_gives {name : String} (hl : (Expr.var name).Lettered) :
    (letter name).Gives check (Copies (.var name)) := by
  obtain ⟨c, -, rfl⟩ := hl name (by rw [names]; exact List.mem_singleton_self _)
  refine .leaf (.pure ⟨.var _, ?_⟩)
  rw [String.toList_singleton]
  exact beq_self_eq_true _

/-- The printed tree of the expression is worked out to its content. -/
def Expr.RebuildsTree (check : Nat → Build Unit) (e : Expr) : Prop :=
  Tree.Gives check (e.tree .text) (Adds e.content)

abbrev signValue (negated : Bool) : ℚ := (signIf negated).toNum.value

theorem sign_mul_abs (n : Num) : signValue n.isNegative * |n.value| = n.value := by
  rw [signValue, Num.isNegative_eq]
  by_cases h : n.value < 0
  · rw [decide_eq_true h, abs_of_neg h]
    exact neg_one_mul _ |>.trans (neg_neg _)
  · rw [decide_eq_false h, abs_of_nonneg (not_lt.mp h)]
    exact one_mul _

theorem signedOperand_number (negated : Bool) (m : Num) :
    Ensures (signedOperand negated (.num m)) (IsNumber (signValue negated * m.value)) NoFault := by
  cases negated with
  | false => exact .pure ⟨m, rfl, (one_mul _).symm⟩
  | true =>
    exact (Num.negate_ensures m).bind fun k hk => .pure ⟨k, rfl, hk.trans (neg_one_mul _).symm⟩

section Power

variable {b e : Expr}

include hcheck in
theorem basePrimary_gives (hc : b.Canonical) (hl : b.Lettered) (hN : b.height ≤ N)
    (h : b.RebuildsTree check) : (basePrimary b (b.tree .text)).Gives check (Copies b) := by
  have hgroup := group_gives hcheck hc hN h
  unfold basePrimary
  split
  next name => exact letter_gives hl
  next n =>
    split
    next hb =>
      rw [isBareBase, Num.isNegative_eq, Bool.and_eq_true, Bool.not_eq_true',
        decide_eq_false_iff_not, not_lt, Num.isInteger_iff] at hb
      refine (natural_gives _).imp ?_
      rintro _ ⟨m, rfl, hm⟩
      rw [natAbs_num hb.2, abs_of_nonneg hb.1] at hm
      exact ⟨.ofNum m, num_eq_iff.mpr hm⟩
    next => exact hgroup
  next => exact hgroup

include hcheck in
theorem exponentFactor_gives (hc : e.Canonical) (hl : e.Lettered) (hN : e.height ≤ N)
    (h : e.RebuildsTree check) :
    ∃ P, (exponentFactor .text e (e.tree .text)).2.Gives check P ∧
      ∀ r, P r → Ensures (signedOperand (exponentFactor .text e (e.tree .text)).1 r) (Copies e)
        NoFault := by
  have hgroup := group_gives hcheck hc hN h
  unfold exponentFactor
  split
  next => exact ⟨_, .operand (letter_gives hl), fun r hr => .pure hr⟩
  next n _ =>
    split
    next he =>
      rw [isBareExponent, Num.isInteger_iff] at he
      refine ⟨_, .operand (natural_gives _), ?_⟩
      rintro _ ⟨m, rfl, hm⟩
      rw [natAbs_num he] at hm
      refine (signedOperand_number n.isNegative m).imp ?_
      rintro _ ⟨k, rfl, hk⟩
      refine ⟨.ofNum k, num_eq_iff.mpr (hk.trans ?_)⟩
      rw [hm]
      exact sign_mul_abs n
    next => exact ⟨_, .operand hgroup, fun r hr => .pure hr⟩
  next => exact ⟨_, .operand hgroup, fun r hr => .pure hr⟩

include hcheck in
theorem powerFactor_gives (form : PowerForm b e) (age : ℕ) (hc : (Expr.power age b e).Canonical)
    (hl : (Expr.power age b e).Lettered) (hN : (Expr.power age b e).height ≤ N)
    (hb : b.RebuildsTree check) (he : e.RebuildsTree check) :
    (powerFactor .text b e (b.tree .text) (e.tree .text)).Gives check
      (Copies (.power age b e)) := by
  obtain ⟨hlb, hle⟩ := lettered_power_iff.mp hl
  rw [height] at hN
  cases hc with
  | power _ hcb hce _ =>
    obtain ⟨P, hfactor, hsigned⟩ := exponentFactor_gives hcheck hce hle (by omega) he
    refine .power (basePrimary_gives hcheck hcb hlb (by omega) hb) hfactor fun b' r hb' hr =>
      (hsigned r hr).bind fun e' he' => ?_
    have form' := PowerForm.congr form (BEq.symm (show (b' == b) = true from hb'.2))
      (BEq.symm (show (e' == e) = true from he'.2))
    refine (ofPower_form form').bind ?_
    rintro _ ⟨age', rfl⟩
    have hbeq : (Expr.power age' b' e').beq (.power age b e) = true := by
      rw [beq, hb'.2, he'.2]
      rfl
    exact (hcheck _ (by rw [height_congr hbeq, height]; exact hN)).bind fun _ _ =>
      .pure ⟨.power age' hb'.1 he'.1 form', hbeq⟩

end Power

/-! ### Products -/

variable (check) in
/-- The factors are worked out to expressions with this rational factor and these powers
together. -/
inductive Run : ℚ → Multiset (ℕ × ℕ) → List (Factor (Primary Atom)) → Prop where
  | nil : Run 1 0 []
  | cons {f : Factor (Primary Atom)} {fs : List (Factor (Primary Atom))} {q r : ℚ}
    {M L : Multiset (ℕ × ℕ)} (hf : f.Gives check (HasPowers q M)) (hfs : Run r L fs) :
    Run (q * r) (M + L) (f :: fs)

theorem Run.single {f : Factor (Primary Atom)} {q : ℚ} {M : Multiset (ℕ × ℕ)}
    (h : f.Gives check (HasPowers q M)) : Run check q M [f] := by
  have hrun := Run.cons h .nil
  rwa [mul_one, add_zero] at hrun

theorem Run.append {fs fs' : List (Factor (Primary Atom))} {q r : ℚ} {M L : Multiset (ℕ × ℕ)}
    (h : Run check q M fs) (h' : Run check r L fs') : Run check (q * r) (M + L) (fs ++ fs') := by
  induction h with
  | nil => rwa [one_mul, zero_add]
  | cons hf _ ih =>
    rw [mul_assoc, add_assoc]
    exact .cons hf ih

/-- Further factors are multiplied to the ones before. -/
theorem Run.foldl {fs : List (Factor (Primary Atom))} {r : ℚ} {L : Multiset (ℕ × ℕ)}
    (h : Run check r L fs) : ∀ {t : Grammar.Term (Factor (Primary Atom))} {q : ℚ}
      {M : Multiset (ℕ × ℕ)}, t.Collects check (Multiplies q M) →
      (fs.foldl (fun t f => .multiply t false f) t).Collects check
        (Multiplies (q * r) (M + L)) := by
  induction h with
  | nil =>
    intro t q M ht
    rwa [mul_one, add_zero]
  | cons hf _ ih =>
    intro t q M ht
    rw [← mul_assoc, ← add_assoc]
    refine ih (.multiply ht hf fun factors divisors e hfactors he => .pure ⟨?_, ?_, ?_, ?_⟩)
    · exact List.forall_mem_append.mpr ⟨hfactors.stable, by simpa using he.stable⟩
    · exact hfactors.no_divisors
    · rw [List.map_append, List.prod_append, hfactors.scale, List.map_singleton,
        List.prod_singleton, he.scale]
    · rw [List.map_append, List.sum_append, hfactors.powers, List.map_singleton, List.sum_singleton,
        he.powers]

/-- Factors that are not empty are worked out to their product. -/
theorem Run.gives {fs : List (Factor (Primary Atom))} {q : ℚ} {M : Multiset (ℕ × ℕ)}
    (h : Run check q M fs) (hne : fs ≠ []) (hq : 0 < q) (hM : (M.map Prod.fst).Nodup) :
    (Term.ofFactors fs).Gives check (HasPowers q M) := by
  have hcollects : (Term.ofFactors fs).Collects check (Multiplies q M) := by
    cases h with
    | nil => exact absurd rfl hne
    | cons hf hfs =>
      refine hfs.foldl (.factor hf fun e he => ⟨?_, rfl, ?_, ?_⟩)
      · simpa using he.stable
      · rw [List.map_singleton, List.prod_singleton, he.scale]
      · rw [List.map_singleton, List.sum_singleton, he.powers]
  exact hcollects.imp fun _ _ h => h.product hq hM

include hcheck in
theorem leading_run (q : ℚ) : Run check |q| 0 (leading q) := by
  rw [leading]
  split
  next h =>
    rw [h]
    exact .nil
  next => exact .single (.operand ((magnitude_gives hcheck q).imp fun e he => he.hasPowers))

/-- What the printed forms of the expression are worked out to: its tree to its content, and its
factors, unless it is a number or has a coefficient, to its powers. -/
structure Expr.Rebuilds (check : Nat → Build Unit) (e : Expr) : Prop where
  tree : e.RebuildsTree check
  chain : e.isNum = false → e.scale = 1 → Run check 1 e.powers (e.chain .text)

include hcheck in
/-- The entries of a product are worked out to its powers. -/
theorem entries_run {factors : List (Expr × Expr)}
    (hc : ∀ p ∈ factors, p.1.Canonical ∧ p.2.Canonical) (hentry : ∀ p ∈ factors, Entry p.1 p.2)
    (hl : ∀ p ∈ factors, p.1.Lettered ∧ p.2.Lettered)
    (hN : ∀ p ∈ factors, 1 + max p.1.height p.2.height ≤ N)
    (h : ∀ p ∈ factors, p.1.Rebuilds check ∧ p.2.RebuildsTree check) :
    Run check 1 (factorsFingerprint factors) (entries .text factors) := by
  induction factors with
  | nil =>
    rw [entries]
    exact .nil
  | cons p factors ih =>
    obtain ⟨b, e⟩ := p
    rw [List.forall_mem_cons] at hc hentry hl hN h
    have hrest := ih hc.2 hentry.2 hl.2 hN.2 h.2
    obtain ⟨hb, he⟩ := h.1
    have hbase := hentry.1.base_not_num
    rw [entries, factorsFingerprint, ← Multiset.singleton_add, ← mul_one (1 : ℚ)]
    refine Run.append ?_ hrest
    split
    next h1 =>
      -- An entry with the exponent one is printed as its base.
      obtain ⟨hprod, hpower⟩ := hentry.1.unmerged h1
      obtain ⟨hpowers, hscale⟩ := powers_of_unmerged hbase hprod hpower
      have hchain := hb.chain hbase hscale
      rw [isOne_iff.mp h1, ← hpowers]
      rw [show b.isProduct = false from hprod]
      exact hchain
    next h1 =>
      have form : PowerForm b e :=
        .of_not_num hbase hentry.1.exponent_ne_zero (by simpa using h1)
      have hgives := powerFactor_gives hcheck form 0 (.power 0 hc.1.1 hc.1.2 form)
        (lettered_power_iff.mpr hl.1) hN.1 hb.tree he
      refine .single (hgives.imp fun r hr => ?_)
      have hhas := hr.hasPowers (.power 0 hentry.1.merged_base hentry.1.merged_exponent)
      rwa [Expr.powers, hbase, if_neg Bool.false_ne_true] at hhas

/-! ### Sums -/

variable (check) in
/-- The signed terms are worked out to expressions with this content together. -/
inductive Row : Content → List (Bool × Grammar.Term (Factor (Primary Atom))) → Prop where
  | nil : Row 0 []
  | cons {negated : Bool} {t : Grammar.Term (Factor (Primary Atom))}
    {ts : List (Bool × Grammar.Term (Factor (Primary Atom)))} {c c' : Content}
    (ht : t.Gives check (HasContent c)) (hts : Row c' ts) :
    Row (signValue negated • c + c') ((negated, t) :: ts)

/-- Further terms are added to the ones before. -/
theorem Row.foldl {ts : List (Bool × Grammar.Term (Factor (Primary Atom)))} {c' : Content}
    (h : Row check c' ts) : ∀ {s : Grammar.Tree Atom} {c : Content}, Tree.Gives check s (Adds c) →
      Tree.Gives check (ts.foldl (fun s p => .add s (signIf p.1) p.2) s) (Adds (c + c')) := by
  induction h with
  | nil =>
    intro s c hs
    rwa [add_zero]
  | cons ht _ ih =>
    intro s c hs
    rw [← add_assoc]
    refine ih (.add hs ht fun terms _ _ hterms he => Ensures.imp he fun e he => ⟨?_, ?_⟩)
    · exact List.forall_mem_append.mpr ⟨hterms.stable, by simpa using he.stable⟩
    · rw [totalContent, List.map_append, List.sum_append, List.map_singleton, List.sum_singleton,
        he.content]
      exact congrArg (· + _) hterms.content

/-- Terms that are not empty are worked out to the terms of their sum. -/
theorem Row.gives {ts : List (Bool × Grammar.Term (Factor (Primary Atom)))} {c : Content}
    (h : Row check c ts) (hne : ts ≠ []) : Tree.Gives check (Tree.ofTerms ts) (Adds c) := by
  cases h with
  | nil => exact absurd rfl hne
  | cons ht hts =>
    refine hts.foldl (.term ht fun _ _ he => Ensures.imp he fun e he => ⟨?_, ?_⟩)
    · simpa using he.stable
    · rw [totalContent, List.map_singleton, List.sum_singleton, he.content]

theorem Row.append {ts ts' : List (Bool × Grammar.Term (Factor (Primary Atom)))} {c c' : Content}
    (h : Row check c ts) (h' : Row check c' ts') : Row check (c + c') (ts ++ ts') := by
  induction h with
  | nil => rwa [zero_add]
  | cons ht _ ih =>
    rw [add_assoc]
    exact .cons ht ih

theorem Row.single (negated : Bool) {t : Grammar.Term (Factor (Primary Atom))} {c : Content}
    (h : t.Gives check (HasContent c)) : Row check (signValue negated • c) [(negated, t)] := by
  have hrow : Row check _ [(negated, t)] := .cons h .nil
  rwa [add_zero] at hrow

/-- What has the powers of a term and a coefficient is a multiple of it, unless it is a sum. -/
theorem Expr.HasPowers.hasContent {q : ℚ} {M : Multiset (ℕ × ℕ)} {r : Expr} (h : HasPowers q M r)
    (hM : M ≠ 0) (hs : ¬ r.isSum = true) : HasContent (0, Finsupp.single M q) r := by
  rw [Bool.not_eq_true] at hs
  refine ⟨h.stable, ?_⟩
  rw [content_of_term (isNum_of_powers (h.powers ▸ hM)) hs, h.powers, h.scale]

include hcheck in
/-- Factors with a coefficient in front are worked out to a multiple of their product. -/
theorem coefficient_gives {fs : List (Factor (Primary Atom))} {M : Multiset (ℕ × ℕ)} {c : Num}
    (h : Run check 1 M fs) (hne : fs ≠ []) (hM : (M.map Prod.fst).Nodup) (hM0 : M ≠ 0)
    (hc : c.isZero = false)
    (hs : ∀ r, HasPowers |c.value| M r → ¬ r.isSum = true) :
    Row check (0, Finsupp.single M c.value)
      [(c.isNegative, .ofFactors (leading c.value ++ fs))] := by
  have hzero : c.value ≠ 0 := fun h => ne_true_of_eq_false hc (Num.isZero_iff.mpr h)
  have hrun := (leading_run hcheck c.value).append h
  rw [mul_one, zero_add] at hrun
  have hgives := hrun.gives (by simp [hne]) (abs_pos.mpr hzero) hM
  have hcontent : (Term.ofFactors (leading c.value ++ fs)).Gives check
      (HasContent (0, Finsupp.single M |c.value|)) :=
    hgives.imp fun _ _ h => Ensures.imp h fun r hr => hr.hasContent hM0 (hs r hr)
  have hrow := Row.single c.isNegative hcontent
  rwa [Prod.smul_mk, smul_zero, Finsupp.smul_single, smul_eq_mul, sign_mul_abs] at hrow

include hcheck in
/-- The entries of a sum are worked out to its terms. -/
theorem terms_row {summands : List (Expr × Num)} (hc : ∀ p ∈ summands, p.1.Canonical)
    (hn : ∀ p ∈ summands, p.1.isNum = false) (h1 : ∀ p ∈ summands, p.1.scale = 1)
    (h0 : ∀ p ∈ summands, p.2.isZero = false)
    (hs : ∀ p ∈ summands, p.1.isSum = true → p.2.value ≠ 1 ∧ p.2.value ≠ -1)
    (h : ∀ p ∈ summands, p.1.Rebuilds check) :
    Row check (0, collect (summands.map fun p => (p.1.powers, p.2.value) : List _))
      (terms .text summands) := by
  induction summands with
  | nil =>
    rw [Expr.terms, List.map_nil, Multiset.coe_nil, collect_zero]
    exact .nil
  | cons p summands ih =>
    obtain ⟨t, c⟩ := p
    rw [List.forall_mem_cons] at hc hn h1 h0 hs h
    have hrest := ih hc.2 hn.2 h1.2 h0.2 hs.2 h.2
    have hterm := coefficient_gives hcheck (h.1.chain hn.1 h1.1) (chain_ne_nil hc.1)
      hc.1.powers_nodup (hc.1.powers_ne_zero hn.1) h0.1 fun r hr hsum => by
        have hscale : |c.value| = 1 := hr.scale.symm.trans (scale_of_isSum hsum)
        have hbeq := hr.stable.canonical.eq_of_powers hc.1
          ((scale_of_isSum hsum).trans h1.1.symm) hr.powers
        obtain ⟨hone, hneg⟩ := hs.1 (isSum_congr hbeq ▸ hsum)
        exact (eq_or_eq_neg_of_abs_eq hscale).elim hone hneg
    have hrow := hterm.append hrest
    rw [Prod.mk_add_mk, add_zero] at hrow
    rw [Expr.terms, List.map_cons, ← Multiset.cons_coe, collect_cons]
    exact hrow

theorem quotient_row (n : Num) : Row check (n.value, 0) [(n.isNegative, quotient n.value)] := by
  have hquotient : (quotient n.value).Gives check (HasContent (|n.value|, 0)) :=
    (quotient_gives n.value).imp fun _ _ h => Ensures.imp h fun _ => IsNumber.hasContent
  have hrow := Row.single n.isNegative hquotient
  rwa [Prod.smul_mk, smul_zero, smul_eq_mul, sign_mul_abs] at hrow

theorem constantTerm_row (c : Num) : Row check (c.value, 0) (constantTerm .text c) := by
  rw [constantTerm]
  split
  next h0 =>
    rw [Num.isZero_iff.mp h0]
    exact .nil
  next => exact quotient_row c

/-! ### Expressions -/

/-- A multiple of the entries of a settled product is no sum. -/
theorem Expr.Settled.not_sum {age : ℕ} {c : Num} {factors : List (Expr × Expr)}
    (hs : (Expr.product age c factors).Settled) (form : ProductForm c factors) {r : Expr}
    (hr : HasPowers |c.value| (factorsFingerprint factors) r) : ¬ r.isSum = true := by
  intro hsum
  have hscale : |c.value| = 1 := hr.scale.symm.trans (scale_of_isSum hsum)
  have hpowers : factorsFingerprint factors = {(r.fingerprint, Expr.one.fingerprint)} :=
    hr.powers.symm.trans (powers_of_isSum hsum)
  have hlength : factors.length = 1 := by
    rw [← card_factorsFingerprint, hpowers, Multiset.card_singleton]
  obtain ⟨p, hp, hb, he⟩ : ∃ p ∈ factors, p.1.beq r = true ∧ p.2.beq .one = true :=
    exists_of_mem_factorsFingerprint (hpowers ▸ Multiset.mem_singleton_self _)
  have hneg : c.value = -1 :=
    (eq_or_eq_neg_of_abs_eq hscale).resolve_left (form.not_single hlength)
  cases hs with
  | product _ _ _ _ negated =>
    have hfalse := negated hneg hlength p hp (isOne_congr he)
    rw [isSum_congr hb, hsum] at hfalse
    exact nomatch hfalse

theorem tree_of_gives {f : Factor (Primary Atom)} {e : Expr} (hm : e.Merged)
    (h : f.Gives check (Copies e)) :
    Tree.Gives check (.term false (.factor f)) (Adds e.content) := by
  have hterm : (Term.factor f).Gives check (HasContent e.content) :=
    .factor (h.imp fun _ hr => hr.hasContent hm)
  have htree := (Row.single false hterm).gives (List.cons_ne_nil _ _)
  have hone : signValue false = 1 := rfl
  rwa [hone, one_smul] at htree

/-- What is printed as one factor is rebuilt if the factor is worked out to it. -/
theorem rebuilds_of_factor {f : Factor (Primary Atom)} {e : Expr} (hm : e.Merged) (h1 : e.scale = 1)
    (htree : e.tree .text = .term false (.factor f)) (hchain : e.chain .text = [f])
    (h : f.Gives check (Copies e)) : e.Rebuilds check where
  tree := by
    rw [RebuildsTree, htree]
    exact tree_of_gives hm h
  chain _ _ := by
    rw [hchain]
    exact .single (h.imp fun _ hr => h1 ▸ hr.hasPowers hm)

include hcheck in
theorem power_rebuilds {age : ℕ} {b e : Expr} (hc : (Expr.power age b e).Canonical)
    (hm : (Expr.power age b e).Merged) (hl : (Expr.power age b e).Lettered)
    (hN : (Expr.power age b e).height ≤ N) (hb : b.RebuildsTree check)
    (he : e.RebuildsTree check) : (Expr.power age b e).Rebuilds check := by
  have form : PowerForm b e := by
    cases hc with
    | power _ _ _ form => exact form
  refine rebuilds_of_factor hm rfl ?_ ?_ (powerFactor_gives hcheck form age hc hl hN hb he)
  · rw [tree]
  · rw [chain]

include hcheck in
theorem product_rebuilds {age : ℕ} {c : Num} {factors : List (Expr × Expr)}
    (hc : (Expr.product age c factors).Canonical) (hs : (Expr.product age c factors).Settled)
    (hl : (Expr.product age c factors).Lettered) (hN : (Expr.product age c factors).height ≤ N)
    (h : ∀ p ∈ factors, p.1.Rebuilds check ∧ p.2.RebuildsTree check) :
    (Expr.product age c factors).Rebuilds check := by
  have hentry : ∀ p ∈ factors, Entry p.1 p.2 := fun p hp =>
    hs.merged.entries hc _ _ (mem_factorsFingerprint hp)
  have hheight : ∀ p ∈ factors, 1 + max p.1.height p.2.height ≤ N := fun p hp =>
    (Nat.add_le_add_left (le_factorsHeight hp) 1).trans hN
  have hnodup := hc.powers_nodup
  have hpowers := hc.powers_ne_zero rfl
  cases hc with
  | product _ _ hcb hce form =>
    have hrun : Run check 1 (factorsFingerprint factors) (entries .text factors) :=
      entries_run hcheck (fun p hp => ⟨hcb p hp, hce p hp⟩) hentry hl.product hheight h
    refine ⟨?_, fun _ h1 => ?_⟩
    · rw [RebuildsTree, tree, content_of_term rfl rfl]
      exact (coefficient_gives hcheck hrun (entries_ne_nil form.ne_nil) hnodup hpowers
        form.coefficient_ne_zero fun _ hr => hs.not_sum form hr).gives (List.cons_ne_nil _ _)
    · have habs : |c.value| = 1 := by rw [show c.value = 1 from h1, abs_one]
      have happend := (leading_run hcheck c.value).append hrun
      rw [habs, mul_one, zero_add] at happend
      rw [chain]
      exact happend

include hcheck in
theorem sum_rebuilds {age : ℕ} {c : Num} {summands : List (Expr × Num)}
    (hc : (Expr.sum age c summands).Canonical) (hs : (Expr.sum age c summands).Settled)
    (hN : (Expr.sum age c summands).height ≤ N) (h : ∀ p ∈ summands, p.1.Rebuilds check) :
    (Expr.sum age c summands).Rebuilds check := by
  have htree : (Expr.sum age c summands).RebuildsTree check := by
    cases hc with
    | sum _ _ hct _ form =>
      cases hs with
      | sum _ _ hneg =>
        have hsign : ∀ p ∈ summands, p.1.isSum = true → p.2.value ≠ 1 ∧ p.2.value ≠ -1 := by
          refine fun p hp hsum => ⟨fun h1 => ?_, hneg p hp hsum⟩
          have hone := form.nested p hp hsum
          rw [show p.2.isOne = true from Num.isOne_iff.mpr h1] at hone
          cases hone
        have hrow := (terms_row hcheck hct form.term_not_num form.scale_eq_one
          form.coefficient_ne_zero hsign h).append (constantTerm_row c)
        rw [Prod.mk_add_mk, zero_add, add_zero] at hrow
        rw [RebuildsTree, tree]
        exact hrow.gives (List.append_ne_nil_of_left_ne_nil (terms_ne_nil form.ne_nil) _)
  refine ⟨htree, fun _ _ => ?_⟩
  have hgroup := group_gives hcheck hc hN htree
  rw [tree] at hgroup
  rw [chain]
  exact .single (Factor.Promises.imp (.operand hgroup) fun _ hr => hr.hasPowers hs.merged)

include hcheck in
/-- **The printed tree of a settled expression is worked out to the expression.** -/
theorem rebuilds {e : Expr} (hc : e.Canonical) (hs : e.Settled) (hl : e.Lettered)
    (hN : e.height ≤ N) : e.Rebuilds check := by
  induction hc with
  | num n _ =>
    refine ⟨?_, fun hn => by cases hn⟩
    rw [RebuildsTree, tree]
    exact (quotient_row n).gives (List.cons_ne_nil _ _)
  | var name =>
    refine rebuilds_of_factor hs.merged rfl ?_ ?_ (.operand (letter_gives hl))
    · rw [tree]
    · rw [chain]
  | @power age b e hcb hce form ihb ihe =>
    obtain ⟨hlb, hle⟩ := lettered_power_iff.mp hl
    have hheight : 1 + max b.height e.height ≤ N := hN
    cases hs with
    | power _ hsb hse =>
      exact power_rebuilds hcheck (.power age hcb hce form)
        (.power age hsb.merged hse.merged) hl hN
        (ihb hsb hlb (by omega)).tree (ihe hse hle (by omega)).tree
  | @product age c factors hred hcb hce form ihb ihe =>
    refine product_rebuilds hcheck (.product age hred hcb hce form) hs hl hN fun p hp => ?_
    have hheight : 1 + max p.1.height p.2.height ≤ N :=
      (Nat.add_le_add_left (le_factorsHeight hp) 1).trans hN
    obtain ⟨hlb, hle⟩ := hl.product p hp
    cases hs with
    | product _ hsb hse _ _ =>
      exact ⟨ihb p hp (hsb p hp) hlb (by omega), (ihe p hp (hse p hp) hle (by omega)).tree⟩
  | @sum age c summands hred hct hr form ih =>
    refine sum_rebuilds hcheck (.sum age hred hct hr form) hs hN fun p hp => ?_
    have hheight : p.1.height ≤ N :=
      (le_summandsHeight hp).trans ((Nat.le_add_left _ 1).trans hN)
    cases hs with
    | sum _ hst _ => exact ih p hp (hst p hp) (hl.sum p hp) hheight

end Promises

namespace Expr

/-! ## Round trips -/

/-- **The printed form of a settled expression is parsed to the expression.** -/
theorem parse_settled {e : Expr} (hc : e.Canonical) (hs : e.Settled) (hl : e.Lettered) {limit : Int}
    (hlimit : (e.height : Int) ≤ limit) : Ensures (parse limit e.text) (Copies e) NoFault := by
  have hread : ReadAs e.text.toList (e.tree .text) := by
    have htext : e.text.toList = Markup.plain .text (e.markup .text) := String.toList_ofList
    rw [htext]
    exact readAs_tree .text hc hl
  have hcheck : ∀ n ≤ e.height,
      Ensures (checkLevels e.text limit n) (fun _ => True) NoFault :=
    fun n hn => checkLevels_passes ((Int.ofNat_le.mpr hn).trans hlimit)
  rw [parse_eq_actUnder (tokenize_of_readAs hread)]
  refine actUnder_ensures hcheck (rebuilds hcheck hc hs hl le_rfl).tree e.shallow.1
    fun terms h => ?_
  exact (Adds.sum hc h).bind fun r hr => (hcheck _ (height_congr hr.2).le).bind fun _ _ => .pure hr

/-- **Printing and parsing.**  The printed form of a parsed expression is parsed, under the same
limit on nesting, to an equal expression, as far as the expression is settled. -/
theorem parse_text {limit : Int} {source : String} {σ : Supply} {e : Expr}
    (h : (parse limit source σ).1 = .ok e) (hs : e.Settled) (σ' : Supply) :
    ∃ e', (parse limit e.text σ').1 = .ok e' ∧ (e' == e) = true := by
  have hc : e.Canonical := (parse_canonical limit source).of_fst h
  have hl : e.Lettered := (parse_lettered limit source).of_fst h
  have hlimit : (e.height : Int) ≤ limit := (parse_height limit source).of_fst h
  have hresult := parse_settled hc hs hl hlimit σ'
  split at hresult
  next e' he' => exact ⟨e', he', hresult.2⟩
  next => exact hresult.elim

/-- The expression of `2x^-y-(x+1)3/2`. -/
def powerAndSum : Expr :=
  .sum 36 .zero
    [(.power 31 (.var "x") (.product 25 ⟨-1, 24⟩ [(.var "y", .num ⟨1, 23⟩)]), ⟨2, 33⟩),
      (.sum 12 ⟨1, 11⟩ [(.var "x", ⟨1, 9⟩)], ⟨.ofRat (-3 / 2), 35⟩)]

/-- The text `2x^-y-(x+1)3/2` is printed as `2x^(-y)-(3/2)(x+1)`. -/
theorem parse_text_powerAndSum : (parse 9 "2x^-y-(x+1)3/2" .initial).1 = .ok powerAndSum ∧
    powerAndSum.Settled ∧
    ∃ e', (parse 9 powerAndSum.text .initial).1 = .ok e' ∧ (e' == powerAndSum) = true := by
  have hparse : (parse 9 "2x^-y-(x+1)3/2" .initial).1 = .ok powerAndSum := by cbv
  have hexponent : (Expr.product 25 ⟨-1, 24⟩ [(.var "y", .num ⟨1, 23⟩)]).Settled := by
    refine .product 25 ?_ ?_ ?_ ?_
    · simpa using .var "y"
    · simpa using .num _
    · simp [isSymbolicPower]
    · simp [isSum]
  have hinner : (Expr.sum 12 ⟨1, 11⟩ [(.var "x", ⟨1, 9⟩)]).Settled := by
    refine .sum 12 ?_ ?_
    · simpa using .var "x"
    · simp [isSum]
  have hsettled : powerAndSum.Settled := by
    refine .sum 36 ?_ ?_
    · simpa using ⟨.power 31 (.var "x") hexponent, hinner⟩
    · simp [isSum]
      norm_num
  exact ⟨hparse, hsettled, parse_text hparse hsettled .initial⟩

/-- The text is parsed, and what is parsed is printed as a text that is parsed to something else. -/
def Drifts (source : String) : Prop :=
  ∃ e e', (parse defaultLimit source .initial).1 = .ok e ∧
    (parse defaultLimit e.text .initial).1 = .ok e' ∧ (e' == e) = false

/-- A power whose exponent cancels down to one, and sums that are negated, are not printed as what
they are. -/
theorem parse_text_unsettled :
    Drifts "w(x^y)^2(x^y)^-1" ∧ Drifts "(x+y)*-1" ∧ Drifts "2(x+y)-3(x+y)+z" :=
  ⟨⟨_, _, by cbv, by cbv, by cbv⟩, ⟨_, _, by cbv, by cbv, by cbv⟩, ⟨_, _, by cbv, by cbv, by cbv⟩⟩

end Expr

end ExactAlgebra
