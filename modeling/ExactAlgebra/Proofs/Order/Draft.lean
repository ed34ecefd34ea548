import ExactAlgebra.Proofs.Order.Registry

/-!
# Known products and sums

The keys of a draft are known nodes, and no two of them are equal.  Since unequal known nodes are of
different ages, the keys are strictly ordered when the draft is finished, and its entries come in an
order that depends on nothing but its keys.

* `ProductDraft.Known`, `SumDraft.Known`: the invariants of the drafts.
* `ProductDraft.collapse_cases`, `SumDraft.collapse_cases`: what becomes of a finished draft.
* `Known.inOrder`: the sorted entries of such a draft are in order.
* `ofProduct_builds`, `ofSum_builds`, `neg_builds`: products, sums and negations of known nodes are
  known.
-/

namespace ExactAlgebra

open Build ExactAlgebra.Expr

/-! ## Ledgers -/

/-- What all entries have in common they keep when an amount is posted, whatever is known then. -/
theorem Ledger.post_registers {ν : Type} {R : Registry} {K : Registry → Expr → Prop}
    {V : Registry → ν → Prop} {rule : Rule Build ν} {l : Ledger Expr ν} {key : Expr} {amount : ν}
    (hl : ∀ R', R ≤ R' → l.All (K R') (V R')) (hk : ∀ R', R ≤ R' → K R' key)
    (hc : ∀ old, V R old ∨ old = rule.start →
      (rule.combine old amount).Registers R fun R' v => rule.vanishes v = false → V R' v) :
    (l.post rule key amount).Registers R fun R' l' =>
      l'.All (K R') (V R') ∧ (l.Distinct → l'.Distinct) := by
  refine (hc _ ?_).bind fun R' v hle hv => .pure ⟨(hl R' hle).store (hk R' hle) hv, ?_⟩
  · cases hg : l.get? key with
    | some old => exact .inl ((hl R (le_refl R)).get? hg)
    | none => exact .inr rfl
  · exact fun hd => hd.store _ _ _

/-! ## Products -/

namespace ProductDraft

/-- The bases are known nodes of which no two are equal, and the exponents are known. -/
def Known (R : Registry) (d : ProductDraft) : Prop :=
  d.exponents.Distinct ∧ d.exponents.All (fun b => b ∈ R.nodes ∧ b.isNum = false)
    fun e => e ∈ R.nodes ∧ e.isZero = false

variable {R R' : Registry} {d : ProductDraft}

theorem Known.mono (h : d.Known R) (hle : R ≤ R') : d.Known R' :=
  ⟨h.1, fun p hp => ⟨⟨hle (h.2 p hp).1.1, (h.2 p hp).1.2⟩, hle (h.2 p hp).2.1, (h.2 p hp).2.2⟩⟩

theorem Known.sound (h : d.Known R) : d.Sound :=
  ⟨h.1, fun p hp =>
    ⟨⟨R.canonical (h.2 p hp).1.1, (h.2 p hp).1.2⟩, R.canonical (h.2 p hp).2.1, (h.2 p hp).2.2⟩⟩

theorem Known.erase (h : d.Known R) (b : Expr) :
    Known R { d with exponents := d.exponents.erase b } := ⟨h.1.erase b, h.2.erase b⟩

/-- The bases are strictly ordered. -/
theorem Known.inOrder (h : d.Known R) :
    d.exponents.InOrder compareBases (d.exponents.sorted compareBases) := by
  have hapart : Apart d.exponents.keys :=
    Registry.apart (List.pairwise_map.mpr h.1) (List.forall_mem_map.mpr fun p hp => (h.2 p hp).1)
  exact Ledger.sorted_inOrder (compareBases_strict hapart) hapart.nodup

section Sum

variable {sum : SignedTerms → Build Expr}
  (hsum : ∀ (R : Registry) (terms : SignedTerms), (∀ p ∈ terms, p.1 ∈ R.nodes) →
    Builds R (sum terms))

include hsum

theorem addExponents_builds {a b : Expr} (ha : a ∈ R.nodes) (hb : b ∈ R.nodes) :
    Builds R (addExponents sum a b) := by
  unfold addExponents
  split
  · exact .number (Num.new_registers _)
  · exact hsum _ _ (by simpa using ⟨ha, hb⟩)

theorem signedExponent_builds {e : Expr} (he : e ∈ R.nodes) (sign : Sign) :
    Builds R (signedExponent sum e sign) := by
  cases sign with
  | plus => exact .pure he
  | minus =>
    have hs : Builds R (sum [(e, .minus)]) := hsum _ _ (by simpa using he)
    cases e with
    | num n => exact .number (Num.new_registers _)
    | _ => exact hs

omit hsum in
theorem scale_known (h : d.Known R) (n : Num) (sign : Sign) :
    (d.scale n sign).Registers R fun R' d' => d'.Known R' := by
  cases sign with
  | plus => exact (Num.new_registers _).bind fun R' _ hle _ => .pure (h.mono hle)
  | minus => exact (Num.divide_registers _ _).bind fun R' _ hle _ => .pure (h.mono hle)

theorem enter_known (h : d.Known R) {b e : Expr} (hb : b ∈ R.nodes) (hn : b.isNum = false)
    (he : e ∈ R.nodes) : (d.enter sum b e).Registers R fun R' d' => d'.Known R' := by
  refine (Ledger.post_registers (fun R' hle => (h.mono hle).2) (fun R' hle => ⟨hle hb, hn⟩)
    fun old hold => ?_).bind fun R' l _ hl => .pure ⟨hl.2 h.1, hl.1⟩
  have hold : old ∈ R.nodes := by
    rcases hold with hold | rfl
    · exact hold.1
    · exact R.leaf rfl
  exact (addExponents_builds hsum hold he).imp fun R' e _ he hz => ⟨he, hz⟩

theorem absorb_known (h : d.Known R) {x : Expr} (hx : x ∈ R.nodes) (sign : Sign) :
    (d.absorb sum x sign).Registers R fun R' d' => d'.Known R' := by
  have hself : x.isNum = false →
      (d.enter sum x (.num sign.toNum)).Registers R fun R' d' => d'.Known R' :=
    fun hn => enter_known hsum h hx hn (R.leaf rfl)
  cases x with
  | num n => exact scale_known h n sign
  | var name => exact hself rfl
  | power age b e =>
    -- A power of a number is a base of its own.
    refine .ite (fun _ => hself rfl) fun hn => ?_
    refine (signedExponent_builds hsum (Registry.power_exponent hx) sign).bind fun R' e hle he => ?_
    exact enter_known hsum (h.mono hle) (hle (Registry.power_base hx)) (by simpa using hn) he
  | product age c factors =>
    have hn : ∀ p ∈ factors, p.1.isNum = false := by
      cases R.canonical hx with
      | product _ _ _ _ form => exact form.base_not_num
    refine (scale_known h c sign).bind fun R' d' hle hd => ?_
    refine Registers.foldlM (I := Known) (fun R'' hle' p hp d'' hd' => ?_) hd
    have hp' := hle.trans hle'
    have hexponent := signedExponent_builds hsum (hp' (Registry.exponent hx hp)) sign
    refine hexponent.bind fun U e hU he => ?_
    exact enter_known hsum (hd'.mono hU) ((hp'.trans hU) (Registry.base hx hp)) (hn p hp) he
  | sum age c summands => exact hself rfl

theorem absorbAll_known (h : d.Known R) {factors divisors : List Expr}
    (hf : ∀ x ∈ factors, x ∈ R.nodes) (hx : ∀ x ∈ divisors, x ∈ R.nodes) :
    (d.absorbAll sum factors divisors).Registers R fun R' d' => d'.Known R' := by
  have hfold : ∀ (sign : Sign) {R : Registry} {l : List Expr}, (∀ x ∈ l, x ∈ R.nodes) →
      ∀ {d : ProductDraft}, d.Known R → Registers R
        (l.foldlM (fun d x => d.absorb sum x sign) d) fun R' d' => d'.Known R' := by
    intro sign R l hl d h
    exact .foldlM (I := Known) (fun R' hle x hx d hd => absorb_known hsum hd (hle (hl x hx)) sign) h
  exact (hfold .plus hf h).bind fun R' d hle hd => hfold .minus (fun x hmem => hle (hx x hmem)) hd

theorem unnest_known (h : d.Known R) {b : Expr} (hb : b ∈ R.nodes) :
    (d.unnest sum b).Registers R fun R' d' => d'.Known R' := by
  unfold unnest
  split
  · refine (Registers.observe _).bind fun R' _ hle _ => ?_
    exact absorb_known hsum ((h.erase b).mono hle) (hle hb) .plus
  · exact (Registers.observe _).bind fun _ _ _ _ => .throw

/-- Merging ends with nothing nested. -/
theorem flatten_known (rounds : Nat) (h : d.Known R) :
    (d.flatten sum rounds).Registers R fun R' d' => d'.Known R' ∧ d'.nested = [] := by
  induction rounds generalizing R d with
  | zero => exact .throw
  | succ rounds ih =>
    rw [flatten]
    split
    next hn => exact .pure ⟨h, hn⟩
    next =>
      refine (Registers.foldlM (I := Known) (fun R' hle b hb d' hd => ?_) h).bind
        fun _ _ _ hd => ih hd
      obtain ⟨e, he, -⟩ := mem_nested hb
      exact unnest_known hsum hd (hle (h.2 _ he).1.1)

/-- The tally of known factors and divisors is known. -/
theorem tally_known {factors divisors : List Expr} (hf : ∀ x ∈ factors, x ∈ R.nodes)
    (hx : ∀ x ∈ divisors, x ∈ R.nodes) : (ProductDraft.tally sum factors divisors).Registers R
      fun R' d => d.Known R' ∧ d.nested = [] := by
  have hempty : ProductDraft.empty.Known R := ⟨.empty, .empty⟩
  exact (absorbAll_known hsum hempty hf hx).bind fun _ d _ hd => flatten_known hsum d.rounds hd

end Sum

/-- A finished draft becomes a leaf, a power, or a product with its sorted entries. -/
theorem collapse_cases (d : ProductDraft) :
    (∃ e : Expr, e.isLeaf = true ∧ d.collapse = pure e) ∨
      (∃ b e, (b, e) ∈ d.exponents.entries ∧ d.collapse = ofPower b e) ∨
      d.coefficient.isZero = false ∧ (2 ≤ d.exponents.entries.length ∨
        d.exponents.entries.length = 1 ∧ d.coefficient.isOne = false) ∧
        d.collapse = do
          return .product (← Build.fresh) d.coefficient (d.exponents.sorted compareBases) := by
  obtain ⟨c, ⟨entries⟩⟩ := d
  simp only [collapse]
  by_cases h0 : c.isZero = true
  · exact .inl ⟨.zero, rfl, if_pos h0⟩
  rw [if_neg h0]
  rw [Bool.not_eq_true] at h0
  rcases entries with - | ⟨⟨b, e⟩, - | ⟨q, l⟩⟩
  · exact .inl ⟨_, rfl, rfl⟩
  · by_cases h1 : c.isOne = true
    · exact .inr (.inl ⟨b, e, List.mem_cons_self, if_pos h1⟩)
    · exact .inr (.inr ⟨h0, .inr ⟨rfl, by simpa using h1⟩, if_neg h1⟩)
  · exact .inr (.inr ⟨h0, .inl (by simp), rfl⟩)

/-- What a finished draft of known entries becomes is known, if it is what a run has returned. -/
theorem collapse_builds (h : d.Known R) (hn : d.nested = []) {s : Supply} (hs : R.Below s)
    (hret : ∀ r t, d.collapse s = (.ok r, t) → d.Returns r) :
    d.collapse.RegistersFrom R s fun R' r => r ∈ R'.nodes := by
  rcases d.collapse_cases with ⟨e, hl, he⟩ | ⟨b, e, hp, he⟩ | ⟨h0, hl, he⟩ <;> rw [he] at hret ⊢
  · exact Registers.pure (P := fun R' e => e ∈ R'.nodes) (R.leaf hl) s hs
  · exact ofPower_builds (h.2 _ hp).1.1 (h.2 _ hp).2.1 s hs
  · -- The new node has the sorted entries, and the run itself is the one that has tallied them.
    have hperm := d.exponents.sorted_perm compareBases
    refine Registers.node (f := fun n => .product n d.coefficient _) hs (fun _ => rfl) (fun n => ?_)
      ?_ ⟨d, _, hret _ _ rfl, .inl ⟨rfl, rfl⟩, h.inOrder⟩ fun R' n _ hmem => .pure hmem
    · refine Registry.product_parts fun p hp => ?_
      obtain ⟨hb, he⟩ := h.2 p (hperm.mem_iff.mp hp)
      exact ⟨hb.1, he.1⟩
    · refine h.sound.product hn h0 hperm (h.1.sorted _) ?_ _
      rw [hperm.length_eq]
      exact hl

end ProductDraft

/-- What the construction returns from each known tally is known. -/
theorem Expr.productWith_builds {R : Registry} (level : Nat)
    (hsum : ∀ (R : Registry) (terms : SignedTerms), (∀ p ∈ terms, p.1 ∈ R.nodes) →
      Builds R (sumAt level terms)) {factors divisors : List Expr}
    (hf : ∀ x ∈ factors, x ∈ R.nodes) (hx : ∀ x ∈ divisors, x ∈ R.nodes) :
    Builds R (productWith (sumAt level) factors divisors) := by
  intro s hs
  rw [productWith_eq_tally]
  refine (ProductDraft.tally_known hsum hf hx).bind_run hs fun R' d s' _ ht hs' hd => ?_
  exact ProductDraft.collapse_builds hd.1 hd.2 hs' fun r t hc =>
    ⟨level, factors, divisors, s, s', t, ht, hc⟩

/-! ## Sums -/

namespace SumDraft

/-- The terms are known nodes of which no two are equal. -/
def Known (R : Registry) (d : SumDraft) : Prop :=
  d.coefficients.Distinct ∧ d.coefficients.All (fun t => t ∈ R.nodes ∧ t.Term)
    fun c => c.isZero = false

variable {R R' : Registry} {d : SumDraft}

theorem Known.mono (h : d.Known R) (hle : R ≤ R') : d.Known R' :=
  ⟨h.1, fun p hp => ⟨⟨hle (h.2 p hp).1.1, (h.2 p hp).1.2⟩, (h.2 p hp).2⟩⟩

theorem Known.sound (h : d.Known R) : d.Sound :=
  ⟨h.1, fun p hp => ⟨(h.2 p hp).1.2, (h.2 p hp).2⟩⟩

theorem Known.erase (h : d.Known R) (t : Expr) :
    Known R { d with coefficients := d.coefficients.erase t } := ⟨h.1.erase t, h.2.erase t⟩

/-- The terms are strictly ordered. -/
theorem Known.inOrder (h : d.Known R) :
    d.coefficients.InOrder compareTerms (d.coefficients.sorted compareTerms) := by
  have hapart : Apart d.coefficients.keys :=
    Registry.apart (List.pairwise_map.mpr h.1)
      (List.forall_mem_map.mpr fun p hp => ⟨(h.2 p hp).1.1, (h.2 p hp).1.2.2.1⟩)
  exact Ledger.sorted_inOrder (compareTerms_strict hapart) hapart.nodup

theorem shift_known (h : d.Known R) (n scale : Num) :
    (d.shift n scale).Registers R fun R' d' => d'.Known R' :=
  (Num.new_registers _).bind fun _ _ hle _ => (Num.new_registers _).bind fun _ _ hle' _ =>
    .pure (h.mono (hle.trans hle'))

theorem enter_known (h : d.Known R) {t : Expr} (ht : t ∈ R.nodes) (hterm : t.Term) (c : Num) :
    (d.enter t c).Registers R fun R' d' => d'.Known R' := by
  refine (Ledger.post_registers (V := fun _ c => c.isZero = false) (fun R' hle => (h.mono hle).2)
    (fun R' hle => ⟨hle ht, hterm⟩) fun old _ => ?_).bind fun R' l _ hl => .pure ⟨hl.2 h.1, hl.1⟩
  exact (Num.new_registers _).imp fun _ _ _ _ hz => hz

theorem absorb_known (h : d.Known R) {t : Expr} (ht : t ∈ R.nodes) (scale : Num) :
    (d.absorb t scale).Registers R fun R' d' => d'.Known R' := by
  have hself : t.isNum = false → t.isProduct = false →
      (d.enter t scale).Registers R fun R' d' => d'.Known R' := by
    intro hn hp
    exact enter_known h ht ⟨R.canonical ht, hn, by rw [coefficient_of_not_product hp]; rfl⟩ scale
  cases t with
  | num n => exact shift_known h n scale
  | var name => exact hself rfl rfl
  | power age b e => exact hself rfl rfl
  | product age c factors =>
    exact (separate_registers ht).bind fun _ p hle hp => (Num.new_registers _).bind
      fun _ k hle' _ => enter_known (h.mono (hle.trans hle')) (hle' hp.1) hp.2 k
  | sum age c summands =>
    have hterm : ∀ p ∈ summands, p.1.Term := by
      cases R.canonical ht with
      | sum _ _ hc _ form =>
        exact fun p hp => ⟨hc p hp, form.term_not_num p hp, form.term_coefficient p hp⟩
    refine (shift_known h c scale).bind fun R' d' hle hd => ?_
    refine Registers.foldlM (I := Known) (fun R'' hle' p hp d'' hd' => ?_) hd
    refine (Num.new_registers _).bind fun U k hU _ => ?_
    have hp' := hle.trans (hle'.trans hU)
    exact enter_known (hd'.mono hU) (hp' (Registry.term ht hp)) (hterm p hp) k

theorem absorbAll_known (h : d.Known R) {terms : SignedTerms} (ht : ∀ p ∈ terms, p.1 ∈ R.nodes) :
    (d.absorbAll terms).Registers R fun R' d' => d'.Known R' :=
  .foldlM (I := Known) (fun _ hle p hp _ hd => absorb_known hd (hle (ht p hp)) _) h

theorem unnest_known (h : d.Known R) {t : Expr} (ht : t ∈ R.nodes) :
    (d.unnest t).Registers R fun R' d' => d'.Known R' := by
  unfold unnest
  split
  · refine (Registers.observe _).bind fun R' _ hle _ => ?_
    exact absorb_known ((h.erase t).mono hle) (hle ht) .one
  · exact (Registers.observe _).bind fun _ _ _ _ => .throw

/-- Merging ends with nothing nested. -/
theorem flatten_known (rounds : Nat) (h : d.Known R) :
    (d.flatten rounds).Registers R fun R' d' => d'.Known R' ∧ d'.nested = [] := by
  induction rounds generalizing R d with
  | zero => exact .throw
  | succ rounds ih =>
    rw [flatten]
    split
    next hn => exact .pure ⟨h, hn⟩
    next =>
      refine (Registers.foldlM (I := Known) (fun R' hle t ht d' hd => ?_) h).bind
        fun _ _ _ hd => ih hd
      obtain ⟨c, hc, -⟩ := mem_nested ht
      exact unnest_known hd (hle (h.2 _ hc).1.1)

/-- The tally of known terms is known. -/
theorem tally_known {terms : SignedTerms} (ht : ∀ p ∈ terms, p.1 ∈ R.nodes) :
    (SumDraft.tally terms).Registers R fun R' d => d.Known R' ∧ d.nested = [] := by
  have hempty : SumDraft.empty.Known R := ⟨.empty, .empty⟩
  exact (absorbAll_known hempty ht).bind fun _ d _ hd => flatten_known d.rounds hd

/-- A finished draft becomes a number, a product, or a sum with its sorted entries. -/
theorem collapse_cases (product : List Expr → Build Expr) (d : SumDraft) :
    d.collapse product = pure (.num d.constant) ∨
      (∃ t c, (t, c) ∈ d.coefficients.entries ∧ d.collapse product = product [t, .num c]) ∨
      2 ≤ d.coefficients.entries.length + (if d.constant.isZero then 0 else 1) ∧
        d.collapse product = do
          return .sum (← Build.fresh) d.constant (d.coefficients.sorted compareTerms) := by
  obtain ⟨c, ⟨entries⟩⟩ := d
  simp only [collapse]
  rcases entries with - | ⟨⟨t, k⟩, - | ⟨q, l⟩⟩
  · exact .inl rfl
  · by_cases h0 : c.isZero = true
    · exact .inr (.inl ⟨t, k, List.mem_cons_self, if_pos h0⟩)
    · exact .inr (.inr ⟨by simp [h0], if_neg h0⟩)
  · exact .inr (.inr ⟨by simp only [List.length_cons]; omega, rfl⟩)

/-- What a finished draft of known entries becomes is known, if it is what a run has returned. -/
theorem collapse_builds {product : List Expr → Build Expr}
    (hproduct : ∀ factors : List Expr, (∀ x ∈ factors, x ∈ R.nodes) → Builds R (product factors))
    (h : d.Known R) (hn : d.nested = []) {s : Supply} (hs : R.Below s)
    (hret : ∀ r t, d.collapse product s = (.ok r, t) → d.Returns r) :
    (d.collapse product).RegistersFrom R s fun R' r => r ∈ R'.nodes := by
  rcases d.collapse_cases product with he | ⟨t, c, hp, he⟩ | ⟨hl, he⟩ <;> rw [he] at hret ⊢
  · exact Registers.pure (P := fun R' e => e ∈ R'.nodes) (R.leaf rfl) s hs
  · exact hproduct _ (by simpa using ⟨(h.2 _ hp).1.1, R.leaf rfl⟩) s hs
  · have hperm := d.coefficients.sorted_perm compareTerms
    refine Registers.node (f := fun n => .sum n d.constant _) hs (fun _ => rfl) (fun n => ?_)
      ?_ ⟨d, hret _ _ rfl, h.inOrder⟩ fun R' n _ hmem => .pure hmem
    · exact Registry.sum_parts fun p hp => (h.2 p (hperm.mem_iff.mp hp)).1.1
    · refine h.sound.sum hn hperm (h.1.sorted _) ?_ _
      rw [hperm.length_eq]
      exact hl

end SumDraft

/-! ## All levels -/

namespace Expr

/-- What the construction returns from known terms is known. -/
theorem sumAt_builds (level : Nat) (R : Registry) (terms : SignedTerms)
    (ht : ∀ p ∈ terms, p.1 ∈ R.nodes) : Builds R (sumAt level terms) := by
  induction level generalizing R terms with
  | zero => exact .throw
  | succ level ih =>
    intro s hs
    rw [sumAt, sumWith_eq_tally]
    refine (SumDraft.tally_known ht).bind_run hs fun R' d s' _ htally hs' hd => ?_
    have hproduct : ∀ factors : List Expr, (∀ x ∈ factors, x ∈ R'.nodes) →
        Builds R' (productWith (sumAt level) factors []) :=
      fun _ hf => productWith_builds level ih hf (List.forall_mem_nil _)
    exact SumDraft.collapse_builds hproduct hd.1 hd.2 hs' fun r t hc =>
      ⟨level, terms, s, s', t, htally, hc⟩

variable {R : Registry}

/-- **The sum of known terms is known.** -/
theorem ofSum_builds {terms : SignedTerms} (ht : ∀ p ∈ terms, p.1 ∈ R.nodes) :
    Builds R (ofSum terms) := sumAt_builds _ R terms ht

/-- **The product of known factors divided by known divisors is known.** -/
theorem ofProduct_builds {factors divisors : List Expr} (hf : ∀ x ∈ factors, x ∈ R.nodes)
    (hx : ∀ x ∈ divisors, x ∈ R.nodes) : Builds R (ofProduct factors divisors) :=
  productWith_builds _ (sumAt_builds _) hf hx

theorem neg_builds {e : Expr} (he : e ∈ R.nodes) : Builds R e.neg := by
  have hs : Builds R (ofSum [(e, .minus)]) := ofSum_builds (by simpa using he)
  cases e with
  | num n => exact .number (Num.new_registers _)
  | _ => exact hs

end Expr

end ExactAlgebra
