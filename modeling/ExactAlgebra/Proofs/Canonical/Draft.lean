import ExactAlgebra.Proofs.Canonical

/-!
# Drafts of canonical form

What is entered into a draft of a product or of a sum has, as an entry, the form that the finished
node asks of its entries.  Merging keeps this, and ends when nothing nested is left; so the finished
draft lacks nothing of canonical form.  Apart from merging nothing can go wrong on the way but that
a divisor is zero: no base is a number, so that no power is undefined.

* `ProductDraft.Sound`, `SumDraft.Sound`: the invariants of the drafts.
* `Fault.Merging`: what can go wrong with merging.
* `ofProduct_ensures`, `ofSum_ensures`: what products and sums of canonical expressions return, and
  how they fail.
* `ofProduct_canonical`, `ofSum_canonical`, `neg_canonical`: products, sums and negations of
  canonical expressions are canonical.
-/

namespace ExactAlgebra

open ExactAlgebra.Expr Build

/-- An entry is missing when it is to be merged, or merging has exhausted its steps. -/
def Fault.Merging : Fault → Prop
  | .missingEntry _ => True
  | .exhausted => True
  | _ => False

/-! ## Products -/

namespace ProductDraft

def Base (b : Expr) : Prop := b.Canonical ∧ b.isNum = false

def Exponent (e : Expr) : Prop := e.Canonical ∧ e.isZero = false

/-- No two bases are equal, and every entry may be an entry of a product. -/
def Sound (d : ProductDraft) : Prop := d.exponents.Distinct ∧ d.exponents.All Base Exponent

theorem Sound.empty : ProductDraft.empty.Sound := ⟨.empty, .empty⟩

section Sum

variable {F : Fault → Prop} (hF : ∀ f : Fault, f.Merging → F f) {sum : SignedTerms → Build Expr}
  (hsum : ∀ terms : SignedTerms, (∀ p ∈ terms, p.1.Canonical) → Ensures (sum terms) Canonical F)
  {d : ProductDraft}

include hsum in
theorem addExponents_canonical {a b : Expr} (ha : a.Canonical) (hb : b.Canonical) :
    Ensures (addExponents sum a b) Canonical F := by
  unfold addExponents
  split
  · exact (Num.new_ensures _).bind fun _ _ => .pure (.ofNum _)
  · refine hsum _ fun p hp => ?_
    simp only [List.mem_cons, List.not_mem_nil, or_false] at hp
    rcases hp with rfl | rfl
    · exact ha
    · exact hb

include hsum in
theorem signedExponent_canonical {e : Expr} (he : e.Canonical) (sign : Sign) :
    Ensures (signedExponent sum e sign) Canonical F := by
  cases sign with
  | plus => exact .pure he
  | minus =>
    have hs : Ensures (sum [(e, .minus)]) Canonical F :=
      hsum _ fun p hp => by rw [List.mem_singleton.mp hp]; exact he
    cases e with
    | num n => exact (Num.new_ensures _).bind fun _ _ => .pure (.ofNum _)
    | _ => exact hs

theorem scale_sound (h : d.Sound) {n : Num} {sign : Sign}
    (hz : sign = .minus → n.isZero = true → ∀ q, F (.divisionByZero q)) :
    Ensures (d.scale n sign) Sound F := by
  cases sign with
  | plus => exact (Num.new_ensures _).bind fun _ _ => .pure h
  | minus =>
    exact (Num.divide_ensures _ _ fun h0 => hz rfl (Num.isZero_iff.mpr h0) _).bind fun _ _ =>
      .pure h

include hsum in
theorem enter_sound (h : d.Sound) {base exponent : Expr} (hb : Base base)
    (he : exponent.Canonical) : Ensures (d.enter sum base exponent) Sound F := by
  refine (Ledger.ensures_post h.2 hb fun old hold => ?_).bind fun l hl => .pure ⟨hl.2 h.1, hl.1⟩
  have hold : old.Canonical := by
    rcases hold with hold | rfl
    · exact hold.1
    · exact .zero
  exact (addExponents_canonical hsum hold he).imp fun e he hz => ⟨he, hz⟩

include hsum in
theorem enterAll_sound (h : d.Sound) {factors : List (Expr × Expr)}
    (hf : ∀ p ∈ factors, Base p.1 ∧ p.2.Canonical) (sign : Sign) :
    Ensures (d.enterAll sum sign factors) Sound F := by
  refine Ensures.foldlM (fun p hp d' hd => ?_) h
  obtain ⟨hbase, hexponent⟩ := hf p hp
  exact (signedExponent_canonical hsum hexponent sign).bind fun e he =>
    enter_sound hsum hd hbase he

include hsum in
theorem absorb_sound (h : d.Sound) {factor : Expr} (hf : factor.Canonical) (sign : Sign)
    (hz : sign = .minus → factor.isZero = true → ∀ q, F (.divisionByZero q)) :
    Ensures (d.absorb sum factor sign) Sound F := by
  cases hf with
  | num n _ => exact scale_sound h hz
  | var name => exact enter_sound hsum h ⟨.var name, rfl⟩ (.ofNum _)
  | power age hb he form =>
    refine .ite (fun hn => ?_) fun hn => ?_
    · exact enter_sound hsum h ⟨.power age hb he form, rfl⟩ (.ofNum _)
    · exact (signedExponent_canonical hsum he sign).bind fun _ he' =>
        enter_sound hsum h ⟨hb, by simpa using hn⟩ he'
  | @product age c factors hc hb he form =>
    have hentry : ∀ p ∈ factors, Base p.1 ∧ p.2.Canonical := fun p hp =>
      ⟨⟨hb p hp, form.base_not_num p hp⟩, he p hp⟩
    refine (scale_sound h fun _ h0 => ?_).bind fun d' hd => enterAll_sound hsum hd hentry sign
    rw [form.coefficient_ne_zero] at h0
    exact nomatch h0
  | sum age hc ht hr form => exact enter_sound hsum h ⟨.sum age hc ht hr form, rfl⟩ (.ofNum _)

include hsum in
theorem absorbAll_sound (h : d.Sound) {factors divisors : List Expr}
    (hf : ∀ e ∈ factors, e.Canonical) (hd : ∀ e ∈ divisors, e.Canonical)
    (hz : ∀ e ∈ divisors, e.isZero = true → ∀ q, F (.divisionByZero q)) :
    Ensures (d.absorbAll sum factors divisors) Sound F := by
  have hfactors : Ensures (factors.foldlM (fun d e => d.absorb sum e .plus) d) Sound F :=
    .foldlM (fun e he d' hd' => absorb_sound hsum hd' (hf e he) .plus nofun) h
  exact hfactors.bind fun d' h' =>
    .foldlM (fun e he d'' hd' => absorb_sound hsum hd' (hd e he) .minus fun _ => hz e he) h'

include hF hsum in
theorem unnest_sound (h : d.Sound) {b : Expr} (hb : b.Canonical) :
    Ensures (d.unnest sum b) Sound F := by
  unfold unnest
  split
  · exact (Ensures.observe _).bind fun _ _ =>
      absorb_sound hsum ⟨h.1.erase b, h.2.erase b⟩ hb .plus nofun
  · exact (Ensures.observe _).bind fun _ _ => .throw (hF _ trivial)

include hF hsum in
/-- Merging ends with nothing nested. -/
theorem flatten_sound (rounds : Nat) (h : d.Sound) :
    Ensures (d.flatten sum rounds) (fun d => d.Sound ∧ d.nested = []) F := by
  induction rounds generalizing d with
  | zero => exact .throw (hF _ trivial)
  | succ rounds ih =>
    rw [flatten]
    split
    next hn => exact .pure ⟨h, hn⟩
    next =>
      refine (Ensures.foldlM (fun b hb _ hd => unnest_sound hF hsum hd ?_) h).bind fun _ hd => ih hd
      obtain ⟨e, he, -⟩ := mem_nested hb
      exact (h.2 _ he).1.1

end Sum

variable {d : ProductDraft}

theorem not_nested (h : d.nested = []) {p : Expr × Expr} (hp : p ∈ d.exponents.entries)
    (hb : p.1.isProduct = true) : p.2.isOne = false := by
  by_contra hone
  have hmem : p.1 ∈ d.nested :=
    List.mem_map_of_mem (List.mem_filter.mpr ⟨hp, by simpa [hb] using hone⟩)
  rw [h] at hmem
  exact nomatch hmem

/-- The entries of a finished draft, in whatever order, are the entries of a product. -/
theorem Sound.product (h : d.Sound) (hn : d.nested = []) (hc : d.coefficient.isZero = false)
    {factors : List (Expr × Expr)} (hperm : factors.Perm d.exponents.entries)
    (hdistinct : factors.Pairwise fun p q => (p.1 == q.1) = false)
    (hl : 2 ≤ factors.length ∨ factors.length = 1 ∧ d.coefficient.isOne = false) (age : Nat) :
    Canonical (.product age d.coefficient factors) := by
  have hall : ∀ p ∈ factors, Base p.1 ∧ Exponent p.2 := fun p hp => h.2 p (hperm.mem_iff.mp hp)
  exact .product age (Num.reduced _) (fun p hp => (hall p hp).1.1) (fun p hp => (hall p hp).2.1)
    ⟨hc, hl, hdistinct, fun p hp => (hall p hp).1.2, fun p hp => (hall p hp).2.2,
      fun p hp => not_nested hn (hperm.mem_iff.mp hp)⟩

theorem collapse_canonical (h : d.Sound) (hn : d.nested = []) :
    Ensures d.collapse Canonical fun _ => False := by
  refine .ite (fun _ => .pure .zero) fun hc => ?_
  rw [Bool.not_eq_true] at hc
  split
  · exact .pure (.ofNum _)
  next base exponent hd =>
    obtain ⟨hb, he⟩ := h.2 (base, exponent) (by rw [hd]; exact List.mem_cons_self)
    refine .ite (fun _ => ofPower_symbolic_canonical hb.1 he.1 hb.2) fun h1 =>
      Ensures.fresh.bind fun age _ => .pure (h.product hn hc (by rw [hd])
        (List.pairwise_singleton _ _) (.inr ⟨rfl, ?_⟩) age)
    simpa using h1
  next h0 h1 =>
    refine Ensures.fresh.bind fun age _ =>
      .pure (h.product hn hc (Ledger.sorted_perm _ _) (h.1.sorted _) (.inl ?_) age)
    rw [(Ledger.sorted_perm _ _).length_eq]
    rcases e : d.exponents.entries with - | ⟨p, - | ⟨q, l⟩⟩
    · exact absurd e h0
    · exact absurd e (h1 _ _)
    · simp

end ProductDraft

/-! ## Sums -/

namespace Expr

def Term (t : Expr) : Prop := t.Canonical ∧ t.isNum = false ∧ t.coefficient.isOne = true

theorem coefficient_of_not_product {e : Expr} (h : e.isProduct = false) : e.coefficient = .one := by
  cases e with
  | product age c factors => exact nomatch h
  | _ => rfl

/-- A base that is no number is left alone or raised symbolically. -/
theorem ofPower_symbolic_shape {base exponent : Expr} (hb : base.isNum = false)
    (he : exponent.isZero = false) : Ensures (ofPower base exponent)
      (fun e => e = base ∧ exponent.isOne = true ∨ ∃ age, e = .power age base exponent)
      fun _ => False := by
  rw [ofPower_symbolic hb, he, if_neg Bool.false_ne_true]
  split
  next h1 => exact .pure (.inl ⟨rfl, h1⟩)
  next => exact Ensures.fresh.bind fun age _ => .pure (.inr ⟨age, rfl⟩)

/-- What is left of a canonical product when its coefficient is taken away. -/
theorem separate_term {age : Nat} {c : Num} {factors : List (Expr × Expr)}
    (hb : ∀ p ∈ factors, p.1.Canonical) (he : ∀ p ∈ factors, p.2.Canonical)
    (form : ProductForm c factors) :
    Ensures (separate age c factors) (fun p => p.2.Term) fun _ => False := by
  unfold separate
  split
  next base exponent =>
    have hn : base.isNum = false := form.base_not_num _ List.mem_cons_self
    have hz : exponent.isZero = false := form.exponent_ne_zero _ List.mem_cons_self
    have hp := ofPower_symbolic_canonical (hb _ List.mem_cons_self) (he _ List.mem_cons_self) hn
    refine (hp.and (ofPower_symbolic_shape hn hz)).mono (fun e h => ?_) (fun _ h => h.1) |>.bind
      fun e h => .pure h
    obtain ⟨hc, ⟨rfl, h1⟩ | ⟨age, rfl⟩⟩ := h
    · -- A base with the exponent one is no product.
      have hprod : e.isProduct = false := by
        by_contra hprod
        rw [Bool.not_eq_false] at hprod
        rw [form.nested _ List.mem_cons_self hprod] at h1
        exact nomatch h1
      exact ⟨hc, hn, by rw [coefficient_of_not_product hprod]; rfl⟩
    · exact ⟨hc, rfl, rfl⟩
  next hsingle =>
    refine .ite (fun h1 => .pure ⟨?_, rfl, h1⟩) fun _ => Ensures.fresh.bind fun age _ =>
      .pure ⟨?_, rfl, rfl⟩
    · exact .product age c.reduced hb he form
    · exact .product age (Num.reduced _) hb he (form.unscaled hsingle)

end Expr

namespace SumDraft

/-- No two terms are equal, and every entry may be an entry of a sum. -/
def Sound (d : SumDraft) : Prop :=
  d.coefficients.Distinct ∧ d.coefficients.All Term fun c => c.isZero = false

theorem Sound.empty : SumDraft.empty.Sound := ⟨.empty, .empty⟩

variable {d : SumDraft}

theorem shift_sound (h : d.Sound) (n scale : Num) :
    Ensures (d.shift n scale) Sound fun _ => False :=
  (Num.new_ensures _).bind fun _ _ => (Num.new_ensures _).bind fun _ _ => .pure h

theorem enter_sound (h : d.Sound) {t : Expr} (ht : t.Term) (c : Num) :
    Ensures (d.enter t c) Sound fun _ => False := by
  refine (Ledger.ensures_post h.2 ht fun old _ => ?_).bind fun l hl => .pure ⟨hl.2 h.1, hl.1⟩
  exact (Num.new_ensures _).imp fun x _ hx => hx

theorem absorb_sound (h : d.Sound) {t : Expr} (ht : t.Canonical) (scale : Num) :
    Ensures (d.absorb t scale) Sound fun _ => False := by
  cases ht with
  | num n _ => exact shift_sound h n scale
  | var name => exact enter_sound h ⟨.var name, rfl, rfl⟩ scale
  | power age hb he form => exact enter_sound h ⟨.power age hb he form, rfl, rfl⟩ scale
  | product age hc hb he form =>
    exact (separate_term hb he form).bind fun p hp => (Num.new_ensures _).bind fun c _ =>
      enter_sound h hp c
  | @sum age c summands hc ht hr form =>
    have hterm : ∀ p ∈ summands, p.1.Term := fun p hp =>
      ⟨ht p hp, form.term_not_num p hp, form.term_coefficient p hp⟩
    refine (shift_sound h _ scale).bind fun d' hd => Ensures.foldlM (fun p hp d'' hd' => ?_) hd
    exact (Num.new_ensures _).bind fun c _ => enter_sound hd' (hterm p hp) c

theorem absorbAll_sound (h : d.Sound) {terms : SignedTerms} (ht : ∀ p ∈ terms, p.1.Canonical) :
    Ensures (d.absorbAll terms) Sound fun _ => False :=
  .foldlM (fun p hp _ hd => absorb_sound hd (ht p hp) _) h

theorem unnest_sound (h : d.Sound) {t : Expr} (ht : t.Canonical) :
    Ensures (d.unnest t) Sound Fault.Merging := by
  unfold unnest
  split
  · exact (Ensures.observe _).bind fun _ _ =>
      (absorb_sound ⟨h.1.erase t, h.2.erase t⟩ ht .one).weaken
  · exact (Ensures.observe _).bind fun _ _ => .throw trivial

/-- Merging ends with nothing nested. -/
theorem flatten_sound (rounds : Nat) (h : d.Sound) :
    Ensures (d.flatten rounds) (fun d => d.Sound ∧ d.nested = []) Fault.Merging := by
  induction rounds generalizing d with
  | zero => exact .throw trivial
  | succ rounds ih =>
    rw [flatten]
    split
    next hn => exact .pure ⟨h, hn⟩
    next =>
      refine (Ensures.foldlM (fun t ht _ hd => unnest_sound hd ?_) h).bind fun _ hd => ih hd
      obtain ⟨c, hc, -⟩ := mem_nested ht
      exact (h.2 _ hc).1.1

theorem not_nested (h : d.nested = []) {p : Expr × Num} (hp : p ∈ d.coefficients.entries)
    (hb : p.1.isSum = true) : p.2.isOne = false := by
  by_contra hone
  have hmem : p.1 ∈ d.nested :=
    List.mem_map_of_mem (List.mem_filter.mpr ⟨hp, by simpa [hb] using hone⟩)
  rw [h] at hmem
  exact nomatch hmem

/-- The entries of a finished draft, in whatever order, are the entries of a sum. -/
theorem Sound.sum (h : d.Sound) (hn : d.nested = []) {summands : List (Expr × Num)}
    (hperm : summands.Perm d.coefficients.entries)
    (hdistinct : summands.Pairwise fun p q => (p.1 == q.1) = false)
    (hl : 2 ≤ summands.length + (if d.constant.isZero then 0 else 1)) (age : Nat) :
    Canonical (.sum age d.constant summands) := by
  have hall : ∀ p ∈ summands, p.1.Term ∧ p.2.isZero = false :=
    fun p hp => h.2 p (hperm.mem_iff.mp hp)
  exact .sum age (Num.reduced _) (fun p hp => (hall p hp).1.1) (fun p _ => p.2.reduced)
    ⟨hl, hdistinct, fun p hp => (hall p hp).1.2.1, fun p hp => (hall p hp).1.2.2,
      fun p hp => (hall p hp).2, fun p hp => not_nested hn (hperm.mem_iff.mp hp)⟩

theorem collapse_canonical {F : Fault → Prop} {product : List Expr → Build Expr}
    (hproduct : ∀ factors : List Expr, (∀ e ∈ factors, e.Canonical) →
      Ensures (product factors) Canonical F)
    (h : d.Sound) (hn : d.nested = []) : Ensures (d.collapse product) Canonical F := by
  unfold collapse
  split
  · exact .pure (.ofNum _)
  next t c hd =>
    have ht := (h.2 (t, c) (by rw [hd]; exact List.mem_cons_self)).1.1
    refine .ite (fun _ => hproduct _ fun e he => ?_) fun h0 => Ensures.fresh.bind fun age _ =>
      .pure (h.sum hn (by rw [hd]) (List.pairwise_singleton _ _) ?_ age)
    · simp only [List.mem_cons, List.not_mem_nil, or_false] at he
      rcases he with rfl | rfl
      · exact ht
      · exact .ofNum c
    · rw [if_neg h0]
      exact Nat.le_refl 2
  next h0 h1 =>
    refine Ensures.fresh.bind fun age _ =>
      .pure (h.sum hn (Ledger.sorted_perm _ _) (h.1.sorted _) ?_ age)
    rw [(Ledger.sorted_perm _ _).length_eq]
    rcases e : d.coefficients.entries with - | ⟨p, - | ⟨q, l⟩⟩
    · exact absurd e h0
    · exact absurd e (h1 _ _)
    · simp only [List.length_cons]
      omega

end SumDraft

/-! ## Canonical products and sums -/

namespace Expr

theorem productWith_canonical {F : Fault → Prop} (hF : ∀ f : Fault, f.Merging → F f)
    {sum : SignedTerms → Build Expr}
    (hsum : ∀ terms : SignedTerms, (∀ p ∈ terms, p.1.Canonical) → Ensures (sum terms) Canonical F)
    {factors divisors : List Expr} (hf : ∀ e ∈ factors, e.Canonical)
    (hd : ∀ e ∈ divisors, e.Canonical)
    (hz : ∀ e ∈ divisors, e.isZero = true → ∀ q, F (.divisionByZero q)) :
    Ensures (productWith sum factors divisors) Canonical F := by
  refine (ProductDraft.absorbAll_sound hsum .empty hf hd hz).bind fun d h => ?_
  refine (ProductDraft.flatten_sound hF hsum _ h).bind fun d' h' => ?_
  exact (ProductDraft.collapse_canonical h'.1 h'.2).weaken

theorem sumWith_canonical {product : List Expr → Build Expr}
    (hproduct : ∀ factors : List Expr, (∀ e ∈ factors, e.Canonical) →
      Ensures (product factors) Canonical Fault.Merging)
    {terms : SignedTerms} (ht : ∀ p ∈ terms, p.1.Canonical) :
    Ensures (sumWith product terms) Canonical Fault.Merging := by
  refine (SumDraft.absorbAll_sound .empty ht).weaken.bind fun d h => ?_
  refine (SumDraft.flatten_sound _ h).bind fun d' h' => ?_
  exact SumDraft.collapse_canonical hproduct h'.1 h'.2

theorem sumAt_canonical (level : Nat) {terms : SignedTerms} (ht : ∀ p ∈ terms, p.1.Canonical) :
    Ensures (sumAt level terms) Canonical Fault.Merging := by
  induction level generalizing terms with
  | zero => exact .throw trivial
  | succ level ih =>
    exact sumWith_canonical (fun factors hf => productWith_canonical (fun _ => id) (fun _ => ih) hf
      (List.forall_mem_nil _) (List.forall_mem_nil _)) ht

/-- The sum of canonical terms is canonical, and nothing but merging can go wrong. -/
theorem ofSum_ensures {terms : SignedTerms} (ht : ∀ p ∈ terms, p.1.Canonical) :
    Ensures (ofSum terms) Canonical Fault.Merging := sumAt_canonical _ ht

/-- The product of canonical factors divided by canonical divisors is canonical, and nothing but
merging can go wrong unless one of the divisors is zero. -/
theorem ofProduct_ensures {factors divisors : List Expr} (hf : ∀ e ∈ factors, e.Canonical)
    (hd : ∀ e ∈ divisors, e.Canonical) : Ensures (ofProduct factors divisors) Canonical fun f =>
      f.Merging ∨ (∃ q, f = .divisionByZero q) ∧ ∃ e ∈ divisors, e.isZero = true :=
  productWith_canonical (fun _ => .inl)
    (fun _ ht => (sumAt_canonical _ ht).mono (fun _ => id) fun _ => .inl) hf hd
    fun e he h0 q => .inr ⟨⟨q, rfl⟩, e, he, h0⟩

/-- **The sum of canonical terms is canonical.** -/
theorem ofSum_canonical {terms : SignedTerms} (ht : ∀ p ∈ terms, p.1.Canonical) :
    Makes (ofSum terms) := .of_ensures (ofSum_ensures ht)

/-- **The product of canonical factors divided by canonical divisors is canonical.** -/
theorem ofProduct_canonical {factors divisors : List Expr} (hf : ∀ e ∈ factors, e.Canonical)
    (hd : ∀ e ∈ divisors, e.Canonical) : Makes (ofProduct factors divisors) :=
  .of_ensures (ofProduct_ensures hf hd)

theorem neg_canonical {e : Expr} (h : e.Canonical) : Makes e.neg := by
  have hs : Makes (ofSum [(e, .minus)]) :=
    ofSum_canonical fun p hp => by rw [List.mem_singleton.mp hp]; exact h
  cases e with
  | num n => exact .number _
  | _ => exact hs

end Expr

end ExactAlgebra
