import ExactAlgebra.Proofs.Content.FixedPoint
import ExactAlgebra.Proofs.Content.Flattening

/-!
# Inverses

An expression that is added and subtracted leaves zero, since both times it enters the same terms,
whatever these are.  Where sums are not merged, negating an expression negates its content and
dividing by it takes its degrees away; so negating twice and inverting twice lead back, and an
expression that is multiplied and divided by leaves one.

Negation has a sum merged that has counted with minus one, and inversion has a product merged whose
exponent has been minus one.  There the way back leads elsewhere.

* `SumDraft.absorb_tallied`: a term always adds the same entries, up to its scale.
* `negatesSum`, `exposesBase`: what is merged by negation and by inversion.
* `neg_content`: negation negates the content.
* `ProductDraft.Holds`, `ProductDraft.absorb_holds`: dividing takes degrees away.
* `inverse_laws`: the inverse laws.  `inverse_laws_fail`: where the way back leads elsewhere.
-/

namespace ExactAlgebra

open Build ExactAlgebra.Expr

/-! ## Differences -/

namespace SumDraft

variable {d : SumDraft} {F : Fault → Prop}

/-- The constant of the draft with its coefficients, by the fingerprints of the terms. -/
noncomputable def tallied (d : SumDraft) : ℚ × (ℕ →₀ ℚ) :=
  (d.constant.value, d.coefficients.total fingerprint Num.value)

theorem enter_tallied (d : SumDraft) (t : Expr) (n : Num) : Ensures (d.enter t n)
    (fun d' => d'.tallied = d.tallied + (0, Finsupp.single t.fingerprint n.value)) F := by
  rw [enter_eq]
  refine (Num.add_ensures _ _).bind fun x hx => .pure ?_
  rw [tallied, tallied, Prod.mk_add_mk, add_zero]
  exact congrArg (Prod.mk _) (Ledger.total_combine _ _ _ (fun _ hk => eq_iff.mp hk)
    Num.isZero_iff.mp rfl hx)

theorem shift_tallied (d : SumDraft) (n s : Num) : Ensures (d.shift n s)
    (fun d' => d'.tallied = d.tallied + s.value • (n.value, 0)) F := by
  refine (Num.multiply_ensures n s).bind fun m hm =>
    (Num.add_ensures d.constant m).bind fun k hk => .pure ?_
  rw [tallied, tallied, Prod.smul_mk, smul_zero, Prod.mk_add_mk, add_zero, hk, hm, smul_eq_mul,
    mul_comm]

/-- Entering a term with a scaled coefficient scales what is added. -/
theorem enter_scaled_tallied (d : SumDraft) (t : Expr) (n s : Num) :
    Ensures (do d.enter t (← n.multiply s)) (fun d' => d'.tallied =
      d.tallied + s.value • (0, Finsupp.single t.fingerprint n.value)) F := by
  refine (Num.multiply_ensures n s).bind fun m hm => ?_
  rw [Prod.smul_mk, smul_zero, Finsupp.smul_single, smul_eq_mul, mul_comm, ← hm]
  exact enter_tallied d t m

theorem enterAll_tallied (summands : List (Expr × Num)) (d : SumDraft) (s : Num) :
    Ensures (summands.foldlM (fun d (t, n) => do d.enter t (← n.multiply s)) d)
      (fun d' => d'.tallied = d.tallied + s.value •
        (0, collect (summands.map fun p => (p.1.fingerprint, p.2.value) : List _))) F := by
  induction summands generalizing d with
  | nil =>
    refine .pure ?_
    rw [List.map_nil, Multiset.coe_nil, collect_zero, ← Prod.zero_eq_mk, smul_zero, add_zero]
  | cons p summands ih =>
    obtain ⟨t, n⟩ := p
    rw [List.foldlM_cons, List.map_cons, ← Multiset.cons_coe, collect_cons,
      ← zero_add (0 : ℚ), ← Prod.mk_add_mk, smul_add, ← add_assoc]
    refine (enter_scaled_tallied d t n s).bind fun d' hd => ?_
    rw [← hd]
    exact ih d'

/-- **A term always adds the same entries**, up to its scale. -/
theorem absorb_tallied {t : Expr} (ht : t.Canonical) : ∃ τ, ∀ (d : SumDraft) (s : Num),
    Ensures (d.absorb t s) (fun d' => d'.tallied = d.tallied + s.value • τ) NoFault := by
  have hself : (∀ (d : SumDraft) (s : Num), d.absorb t s = d.enter t s) →
      ∃ τ, ∀ (d : SumDraft) (s : Num),
        Ensures (d.absorb t s) (fun d' => d'.tallied = d.tallied + s.value • τ) NoFault := by
    refine fun hs => ⟨(0, Finsupp.single t.fingerprint 1), fun d s => ?_⟩
    rw [hs, Prod.smul_mk, smul_zero, Finsupp.smul_single, smul_eq_mul, mul_one]
    exact enter_tallied d t s
  cases ht with
  | num n _ => exact ⟨(n.value, 0), fun d s => shift_tallied d n s⟩
  | @product age n factors _ hb he form =>
    have hrest : ∃ k, Ensures (separate age n factors)
        (fun p => p.1.value = n.value ∧ p.2.fingerprint = k) NoFault := by
      unfold separate
      split
      next b e =>
        refine ⟨_, Ensures.bind (ofPower_fingerprint (form.base_not_num _ List.mem_cons_self)
          (form.exponent_ne_zero _ List.mem_cons_self)) fun r hr => .pure ⟨rfl, hr⟩⟩
      · exact ⟨(Expr.product 0 .one factors).fingerprint,
          .ite (fun h1 => .pure ⟨(Num.isOne_iff.mp h1).symm, by
            rw [fingerprint, fingerprint, Num.isOne_iff.mp h1]; rfl⟩) fun _ =>
          Ensures.fresh.bind fun _ _ => .pure ⟨rfl, rfl⟩⟩
    obtain ⟨k, hk⟩ := hrest
    refine ⟨(0, Finsupp.single k n.value), fun d s => hk.bind fun p hp => ?_⟩
    rw [← hp.1, ← hp.2]
    exact enter_scaled_tallied d p.2 p.1 s
  | @sum age n summands _ _ _ _ =>
    refine ⟨(n.value, collect (summands.map fun p => (p.1.fingerprint, p.2.value) : List _)),
      fun d s => (shift_tallied d n s).bind fun d' hd => ?_⟩
    rw [← add_zero n.value, ← zero_add (collect _), ← Prod.mk_add_mk, smul_add, ← add_assoc, ← hd]
    exact enterAll_tallied summands d' s
  | _ => exact hself fun _ _ => rfl

/-- A sound draft that holds nothing has no entries. -/
theorem Sound.entries_eq_nil (h : d.Sound) (h0 : d.tallied = 0) : d.coefficients.entries = [] := by
  rw [← List.map_eq_nil_iff (f := fun p => (p.1.fingerprint, p.2.value)), ← Multiset.coe_eq_zero]
  refine collect_injective ?_ Multiset.nodup_zero ?_
    (fun p hp => absurd hp (Multiset.notMem_zero p))
    ((congrArg Prod.snd h0).trans collect_zero.symm)
  · rw [Multiset.map_coe, Multiset.coe_nodup, List.map_map, List.Nodup, List.pairwise_map]
    refine h.1.imp fun {p r} hpr hf => ?_
    rw [eq_iff.mpr hf] at hpr
    cases hpr
  · intro q hq
    obtain ⟨p, hp, rfl⟩ := List.mem_map.mp (Multiset.mem_coe.mp hq)
    exact fun h0 => ne_true_of_eq_false (h.2 p hp).2 (Num.isZero_iff.mpr h0)

end SumDraft

namespace Expr

/-- **An expression minus itself is zero**, also where sums are merged. -/
theorem ofSum_opposite {e : Expr} (he : e.Canonical) :
    Ensures (ofSum [(e, .plus), (e, .minus)]) (Copies .zero) NoFault := by
  obtain ⟨τ, hτ⟩ := SumDraft.absorb_tallied he
  have habsorb : Ensures (SumDraft.empty.absorbAll [(e, .plus), (e, .minus)])
      (fun d => d.tallied = 0) NoFault := by
    refine (hτ .empty .one).bind fun d hd => (hτ d .negativeOne).bind fun d' hd' => .pure ?_
    have hempty : SumDraft.empty.tallied = 0 := by
      rw [SumDraft.tallied, Ledger.total]
      exact congrArg (Prod.mk 0) collect_zero
    rw [hd', hd, hempty, zero_add, ← add_smul]
    exact (congrArg (· • τ) (add_neg_cancel (1 : ℚ))).trans (zero_smul ℚ τ)
  have hsound : Ensures (SumDraft.empty.absorbAll [(e, .plus), (e, .minus)]) SumDraft.Sound
      NoFault := SumDraft.absorbAll_sound .empty (by simpa using he)
  refine ((habsorb.and hsound).mono (fun _ => id) fun _ h => h.1).bind fun d hd => ?_
  obtain ⟨h0, hd⟩ := hd
  have hnil := hd.entries_eq_nil h0
  have hnested : d.nested = [] := by rw [SumDraft.nested, hnil]; rfl
  rw [SumDraft.finish, SumDraft.rounds, SumDraft.flatten_unnested hnested, pure_bind,
    SumDraft.collapse, hnil]
  exact .pure ⟨.ofNum _, num_eq_iff.mpr (congrArg Prod.fst h0)⟩

/-! ## Negation -/

/-- A sum counts in the expression with the coefficient minus one: negation merges it. -/
def negatesSum : Expr → Bool
  | .product _ c [(b, e)] => c.isNegativeOne && b.isSum && e.isOne
  | .sum _ _ summands => summands.any fun (t, c) => t.isSum && c.isNegativeOne
  | _ => false

/-- Unless a sum counts with minus one, nothing is merged in the negation. -/
theorem Canonical.quiet_neg {e : Expr} (h : e.Canonical) (hn : e.negatesSum = false) :
    Quiet (-e.content).2 := by
  intro t ht hs h1
  have hone : e.tally t.powers = -1 := by
    rw [← neg_eq_iff_eq_neg]
    exact h1
  have hmem : (t.powers, (-1 : ℚ)) ∈ e.addends := by
    rw [← graph_collect h.addends_nodup h.coefficient_ne_zero, Finset.mem_val,
      Finsupp.mem_graph_iff]
    exact ⟨hone, by norm_num⟩
  have hpositive : e.addends ≠ {(e.powers, 1)} := by
    intro ha
    rw [ha, Multiset.mem_singleton, Prod.mk.injEq] at hmem
    norm_num at hmem
  cases h with
  | num n _ => exact Multiset.notMem_zero _ hmem
  | @product age c factors _ hb he form =>
    rw [addends_product, Multiset.mem_singleton, Prod.mk.injEq, powers_of_isSum hs] at hmem
    obtain ⟨hpowers, hc⟩ := hmem
    have hcard := congrArg Multiset.card hpowers
    rw [Multiset.card_singleton, card_factorsFingerprint] at hcard
    obtain ⟨p, rfl⟩ := List.length_eq_one_iff.mp hcard.symm
    have hfactors := Multiset.singleton_inj.mp hpowers
    rw [Prod.mk.injEq] at hfactors
    have hsum := isSum_congr ((beq_iff _ _).mpr hfactors.1)
    rw [negatesSum, Num.isNegativeOne_iff.mpr hc.symm, ← hsum, hs,
      isOne_iff.mpr hfactors.2.symm] at hn
    simp at hn
  | @sum age c summands _ ht' _ form =>
    obtain ⟨p, hp, hpt⟩ := List.mem_map.mp (Multiset.mem_coe.mp hmem)
    rw [Prod.mk.injEq] at hpt
    have hsum := ht.isSum_of_powers (ht' p hp) hs (form.scale_eq_one p hp) hpt.1
    rw [negatesSum, List.any_eq_false] at hn
    refine hn p hp ?_
    rw [Bool.and_eq_true]
    exact ⟨hsum, Num.isNegativeOne_iff.mpr hpt.2⟩
  | _ => exact hpositive rfl

end Expr

namespace ProductDraft

/-- A negated exponent has the negated content, unless this merges sums. -/
theorem signedExponent_minus {sum : SignedTerms → Build Expr} (hsum : AddsUp sum) {e : Expr}
    (he : e.Stable) (hq : Quiet (-e.content).2) :
    Ensures (signedExponent sum e .minus) (HasContent (-e.content)) Stops := by
  have htotal : totalContent [(e, .minus)] = -e.content := by
    rw [totalContent, List.map_singleton, List.sum_singleton]
    exact neg_one_smul ℚ _
  rcases e.num_or with ⟨n, rfl⟩ | hn
  · refine (Num.negate_ensures n).bind fun m hm => .pure ⟨.num m, ?_⟩
    rw [content_num, content_num, hm, Prod.neg_mk, neg_zero]
  · have hneg : signedExponent sum e .minus = sum [(e, .minus)] := by
      cases e with
      | num n => cases hn
      | _ => rfl
    rw [hneg, ← htotal]
    exact hsum _ (by simpa using he) (htotal ▸ hq)

end ProductDraft

namespace Expr

theorem neg_of_not_num {e : Expr} (h : e.isNum = false) : e.neg = ofSum [(e, .minus)] := by
  cases e with
  | num n => cases h
  | _ => rfl

/-- **Negation negates the content**, unless this merges sums. -/
theorem neg_content {e : Expr} (h : e.Stable) (hq : Quiet (-e.content).2) :
    Ensures e.neg (HasContent (-e.content)) NoFault := by
  have hsigned : e.neg = ProductDraft.signedExponent ofSum e .minus := by
    cases e <;> rfl
  have hsum : AddsUp ofSum := fun terms => sumAt_addsUp _ terms
  have hfinishes : Finishes e.neg fun _ => True := by
    cases e with
    | num n => exact (Num.negate_ensures n).bind fun _ _ => .pure trivial
    | _ => exact (ofSum_finishes _).imp fun _ _ => trivial
  rw [hsigned] at hfinishes ⊢
  exact (ProductDraft.signedExponent_minus hsum h hq).noFault hfinishes

/-- **Negating twice leads back**, unless the first negation merges sums. -/
theorem neg_neg_copies {e : Expr} (h : e.Stable) (hn : e.negatesSum = false) :
    Ensures (do (← e.neg).neg) (Copies e) NoFault := by
  refine (neg_content h (h.canonical.quiet_neg hn)).bind fun r hr => ?_
  have hback : -r.content = e.content := by rw [hr.content, neg_neg]
  refine (neg_content hr.stable (hback ▸ h.canonical.quiet)).imp fun r' hr' => ?_
  exact ⟨hr'.stable.canonical, hr'.stable.canonical.eq_of_content h.canonical
    (hr'.content.trans hback)⟩

end Expr

/-! ## Division -/

namespace ProductDraft

/-- The draft has this coefficient and these degrees. -/
structure Gathers (d : ProductDraft) (q : ℚ) (δ : ℕ →₀ Content) : Prop where
  collects : d.Collects q (factorsFingerprint d.exponents.entries)
  degrees : degreesOf (factorsFingerprint d.exponents.entries) = δ

variable {d : ProductDraft} {q : ℚ} {δ : ℕ →₀ Content} {M : Multiset (ℕ × ℕ)}

theorem Collects.gathers (h : d.Collects q M) : d.Gathers q (degreesOf M) :=
  ⟨⟨h.distinct, h.entry, h.coefficient, rfl⟩, h.degrees⟩

theorem Gathers.with_powers (h : d.Gathers q δ) (hM : degreesOf M = δ) : d.Collects q M :=
  ⟨h.collects.distinct, h.collects.entry, h.collects.coefficient, h.degrees.trans hM.symm⟩

/-- An exponent can be added where it makes no sum due to be merged. -/
theorem Gathers.addable (h : d.Gathers q δ) {b e : Expr} (he : e.Canonical)
    (hq : Quiet (δ b.fingerprint + e.content).2) :
    Addable (factorsFingerprint d.exponents.entries + {(b.fingerprint, e.fingerprint)}) := by
  have hproper := h.collects.properPowers
  intro N hN n
  by_cases hmem : (b.fingerprint, e.fingerprint) ∈ N
  · obtain ⟨L, rfl⟩ := Multiset.exists_cons_of_mem hmem
    rw [add_comm, Multiset.singleton_add, Multiset.cons_le_cons_iff] at hN
    rw [← Multiset.singleton_add, degreesOf_add, degreesOf_singleton, Finsupp.add_apply]
    rcases eq_or_ne n b.fingerprint with rfl | hne
    · rw [Finsupp.single_eq_same]
      by_cases hb : b.fingerprint ∈ L.map Prod.fst
      · obtain ⟨p, hp, hpb⟩ := Multiset.mem_map.mp hb
        rw [← hpb, degreesOf_apply_of_mem (hproper.mono hN).nodup hp,
          ← degreesOf_apply_of_mem hproper.nodup (Multiset.mem_of_le hN hp), h.degrees, hpb,
          add_comm]
        exact hq
      · rw [degreesOf_apply_of_notMem hb, add_zero]
        exact he.quiet
    · rw [Finsupp.single_eq_of_ne hne, zero_add]
      exact (hproper.mono hN).quiet n
  · rw [add_comm, Multiset.singleton_add, Multiset.le_cons_of_notMem hmem] at hN
    exact (hproper.mono hN).quiet n

variable {sum : SignedTerms → Build Expr} (hsum : AddsUp sum)

include hsum in
/-- An exponent is added to the degree of its base. -/
theorem enter_gathers {b e : Expr} (h : d.Gathers q δ) (hentry : StableEntry (b, e))
    (hq : Quiet (δ b.fingerprint + e.content).2) : Ensures (d.enter sum b e)
      (·.Gathers q (δ + Finsupp.single b.fingerprint e.content)) Stops := by
  refine (enter_collects hsum h.collects hentry
    (h.addable hentry.exponent.canonical hq)).imp fun d' hd => ?_
  rw [← degreesOf_singleton, ← h.degrees, ← degreesOf_add]
  exact hd.gathers

include hsum in
/-- Dividing by a power takes its exponent away from the degree of its base. -/
theorem enter_minus_gathers {b e : Expr} (h : d.Gathers q δ) (hentry : StableEntry (b, e))
    (hn : Quiet (-e.content).2) (hq : Quiet (δ b.fingerprint - e.content).2) :
    Ensures (do d.enter sum b (← signedExponent sum e .minus))
      (·.Gathers q (δ - Finsupp.single b.fingerprint e.content)) Stops := by
  refine (signedExponent_minus hsum hentry.exponent hn).bind fun x hx => ?_
  rw [sub_eq_add_neg, ← hx.content] at hq
  have hzero : x.isZero = false := by
    by_contra h0
    rw [Bool.not_eq_false] at h0
    have hcontent := hx.content.symm.trans (content_of_isZero h0)
    exact hentry.exponent.canonical.content_ne_zero hentry.exponent_ne_zero
      (neg_eq_zero.mp hcontent)
  have hstored : StableEntry (b, x) := ⟨hentry.base, hentry.base_not_num, hx.stable, hzero⟩
  have henter := enter_gathers hsum h hstored hq
  rwa [hx.content, Finsupp.single_neg, ← sub_eq_add_neg] at henter

include hsum in
theorem enterAll_gathers {factors : List (Expr × Expr)} (h : d.Gathers q δ)
    (hentry : ∀ p ∈ factors, StableEntry p) (hn : ∀ p ∈ factors, Quiet (-p.2.content).2)
    (hd : ((factorsFingerprint factors).map Prod.fst).Nodup)
    (hq : ∀ p ∈ factors, Quiet (δ p.1.fingerprint - p.2.content).2) :
    Ensures (d.enterAll sum .minus factors)
      (·.Gathers q (δ - degreesOf (factorsFingerprint factors))) Stops := by
  induction factors generalizing d δ with
  | nil =>
    rw [factorsFingerprint, degreesOf_zero, sub_zero]
    exact .pure h
  | cons p factors ih =>
    obtain ⟨b, e⟩ := p
    rw [List.forall_mem_cons] at hentry hn hq
    rw [factorsFingerprint, Multiset.map_cons, Multiset.nodup_cons] at hd
    rw [factorsFingerprint, ← Multiset.singleton_add, degreesOf_add, degreesOf_singleton,
      ← sub_sub, enterAll, List.foldlM_cons]
    refine (enter_minus_gathers hsum h hentry.1 hn.1 hq.1).bind fun d' hd' =>
      ih hd' hentry.2 hn.2 hd.2 fun p hp => ?_
    have hne : p.1.fingerprint ≠ b.fingerprint := fun hpb =>
      hd.1 (Multiset.mem_map.mpr ⟨_, mem_factorsFingerprint hp, hpb⟩)
    rw [Finsupp.sub_apply, Finsupp.single_eq_of_ne hne, sub_zero]
    exact hq.2 p hp

include hsum in
/-- **Dividing takes degrees away**: the coefficient is divided, and each exponent is taken away
from that of its base. -/
theorem absorb_gathers {x : Expr} (h : d.Gathers q δ) (hx : x.scale ≠ 0)
    (hentry : ∀ p ∈ x.powerList, StableEntry p) (hn : ∀ p ∈ x.powerList, Quiet (-p.2.content).2)
    (hd : (x.powers.map Prod.fst).Nodup)
    (hq : ∀ p ∈ x.powerList, Quiet (δ p.1.fingerprint - p.2.content).2) :
    Ensures (d.absorb sum x .minus) (·.Gathers (q / x.scale) (δ - degreesOf x.powers)) Stops := by
  have hscale : ∀ n : Num, n.value ≠ 0 →
      Ensures (d.scale n .minus) (·.Gathers (q / n.value) δ) Stops := by
    intro n hn
    refine Ensures.bind (P := fun c : Num => c.value = d.coefficient.value / n.value) ?_
      fun c hc => .pure ⟨⟨h.collects.distinct, h.collects.entry, ?_, rfl⟩, h.degrees⟩
    · exact Num.divide_ensures _ _ fun h0 => absurd h0 hn
    · rw [hc, h.collects.coefficient]
  -- What is a base of its own counts with minus one.
  have hself : x.powerList = [(x, .one)] → x.powers = {(x.fingerprint, Expr.one.fingerprint)} →
      x.scale = 1 → Ensures (d.enter sum x (.num Sign.minus.toNum))
        (·.Gathers (q / x.scale) (δ - degreesOf x.powers)) Stops := by
    intro hlist hpowers h1
    have hcontent : (Expr.num Sign.minus.toNum).content = -Expr.one.content := by
      rw [content_num, content_one, Prod.neg_mk, neg_zero]
      rfl
    rw [hlist, List.forall_mem_singleton] at hentry hq
    rw [h1, div_one, hpowers, degreesOf_singleton, sub_eq_add_neg, ← Finsupp.single_neg, ← hcontent]
    have hstored : StableEntry (x, .num Sign.minus.toNum) :=
      ⟨hentry.base, hentry.base_not_num, .num _, rfl⟩
    refine enter_gathers hsum h hstored ?_
    rw [hcontent, ← sub_eq_add_neg]
    exact hq
  cases x with
  | num n =>
    rw [powers, degreesOf_zero, sub_zero]
    exact hscale n hx
  | var name => exact hself rfl rfl rfl
  | power age b e =>
    rw [absorb]
    split
    next hb => exact hself (by rw [powerList, if_pos hb]) (by rw [powers, if_pos hb]) rfl
    next hb =>
      rw [powerList, if_neg hb, List.forall_mem_singleton] at hentry hn hq
      rw [powers, if_neg hb, degreesOf_singleton, show (Expr.power age b e).scale = 1 from rfl,
        div_one]
      exact enter_minus_gathers hsum h hentry hn hq
  | product age c factors =>
    exact (hscale c hx).bind fun d' hd' => enterAll_gathers hsum hd' hentry hn hd hq
  | sum age c summands => exact hself rfl rfl rfl

/-- A draft without degrees has no entries. -/
theorem Gathers.entries_eq_nil (h : d.Gathers q 0) : d.exponents.entries = [] := by
  have hnil : factorsFingerprint d.exponents.entries = 0 :=
    degreesOf_injective h.collects.properPowers ⟨Multiset.nodup_zero, fun p hp =>
      absurd hp (Multiset.notMem_zero p)⟩ (h.degrees.trans degreesOf_zero.symm)
  rw [← List.length_eq_zero_iff, ← card_factorsFingerprint, hnil, Multiset.card_zero]

/-- The finished product has the coefficient and the entries of the draft, also where an entry has
the exponent one and a symbolic power as its base, unless this is the only entry. -/
theorem collapse_powerList (h : d.Collects q M) (hq : q ≠ 0)
    (hm : ∀ b e, d.exponents.entries = [(b, e)] → d.coefficient.isOne = true → e.isOne = true →
      b.isProduct = false ∧ b.isSymbolicPower = false) :
    Ensures d.collapse (fun r => r.scale = q ∧
      r.powers = factorsFingerprint d.exponents.entries ∧
      ∀ p ∈ r.powerList, StableEntry p) NoFault := by
  rw [← h.coefficient] at hq ⊢
  refine .ite (fun h0 => absurd (Num.isZero_iff.mp h0) hq) fun _ => ?_
  split
  next hd =>
    rw [hd]
    exact .pure ⟨rfl, rfl, List.forall_mem_nil _⟩
  next b e hd =>
    have hentry : StableEntry (b, e) := h.entry _ (by rw [hd]; exact List.mem_cons_self)
    have hall : ∀ p ∈ [(b, e)], StableEntry p := by simpa using hentry
    rw [hd]
    refine .ite (fun h1 => ?_) fun _ => Ensures.fresh.bind fun age _ => .pure ⟨rfl, rfl, hall⟩
    have hpowers := ofPower_powers hentry.base_not_num hentry.exponent_ne_zero (hm b e hd h1)
    have hlist : Ensures (ofPower b e) (fun r => ∀ p ∈ r.powerList, StableEntry p) NoFault := by
      rw [ofPower_symbolic hentry.base_not_num, hentry.exponent_ne_zero,
        if_neg Bool.false_ne_true]
      refine .ite (fun _ => .pure hentry.base.powerList) fun _ =>
        Ensures.fresh.bind fun age _ => .pure ?_
      rwa [powerList, hentry.base_not_num, if_neg Bool.false_ne_true]
    refine (hpowers.and hlist).mono (fun r hr => ?_) fun _ h => h.1
    exact ⟨hr.1.2.trans (Num.isOne_iff.mp h1).symm, hr.1.1, hr.2⟩
  next =>
    have hperm := Ledger.sorted_perm compareBases d.exponents
    refine Ensures.fresh.bind fun age _ => .pure ⟨rfl, ?_, fun p hp =>
      h.entry p (hperm.mem_iff.mp hp)⟩
    rw [powers, factorsFingerprint_eq, factorsFingerprint_eq, Multiset.coe_eq_coe]
    exact hperm.map _

end ProductDraft

namespace Expr

/-- An entry of a product has the exponent minus one and a product as its base, or the expression is
a power with the exponent minus one and a product or a symbolic power as its base: inversion merges
the base. -/
def exposesBase : Expr → Bool
  | .power _ b e => e == negativeOne && (b.isProduct || b.isSymbolicPower)
  | .product _ _ factors => factors.any fun (b, e) => e == negativeOne && b.isProduct
  | _ => false

/-- Negation merges a sum in an exponent of the expression. -/
def negatesInExponent (e : Expr) : Bool := e.powerList.any fun (_, x) => x.negatesSum

theorem Canonical.scale_ne_zero_of_isZero {e : Expr} (h : e.Canonical) (h0 : e.isZero = false) :
    e.scale ≠ 0 := by
  rcases e.num_or with ⟨n, rfl⟩ | hn
  · exact fun hzero => ne_true_of_eq_false h0 (Num.isZero_iff.mpr hzero)
  · exact h.scale_ne_zero hn

theorem Stable.quiet_exponents {e : Expr} (h : e.Stable) (hn : e.negatesInExponent = false) :
    ∀ p ∈ e.powerList, Quiet (-p.2.content).2 := by
  intro p hp
  rw [negatesInExponent, List.any_eq_false] at hn
  exact (h.powerList p hp).exponent.canonical.quiet_neg (by simpa using hn p hp)

/-- The exponent of a base among the powers of an expression. -/
theorem degreesOf_powers {e : Expr} (h : ProperPowers e.powers) {p : Expr × Expr}
    (hp : p ∈ e.powerList) : degreesOf e.powers p.1.fingerprint = p.2.content :=
  h.degreesOf_apply (by rw [powers_eq]; exact mem_factorsFingerprint hp)

/-- **An expression divided by itself is one**, unless negation merges sums in its exponents. -/
theorem ofProduct_self {e : Expr} (h : e.Stable) (h0 : e.isZero = false)
    (hn : e.negatesInExponent = false) : Ensures (ofProduct [e] [e]) (Copies .one) NoFault := by
  have hscale := h.canonical.scale_ne_zero_of_isZero h0
  have hproper := h.canonical.properPowers
  refine Ensures.noFault (Ensures.bind (P := (·.Gathers 1 0)) ?_ fun d hd => ?_)
    (ofProduct_finishes _ _)
  · have hplus := ProductDraft.absorb_collects (sumAt_addsUp (depthOf [e, e])) .empty h
      (by rw [zero_add]; exact hproper.addable)
    rw [one_mul, zero_add] at hplus
    refine Ensures.bind (Ensures.bind hplus fun d hd => .pure hd) fun d hd => ?_
    refine Ensures.bind (ProductDraft.absorb_gathers (sumAt_addsUp _) hd.gathers hscale h.powerList
      (h.quiet_exponents hn) h.canonical.powers_nodup fun p hp => ?_) fun d' hd' => .pure ?_
    · rw [degreesOf_powers hproper hp, sub_self]
      exact Plain.zero.quiet
    · rwa [div_self hscale, sub_self] at hd'
  · have hnil := hd.entries_eq_nil
    have hnested : d.nested = [] := by rw [ProductDraft.nested, hnil]; rfl
    rw [ProductDraft.finish, ProductDraft.rounds, ProductDraft.flatten_unnested hnested, pure_bind,
      ProductDraft.collapse, hnil]
    have h1 := hd.collects.coefficient
    refine .ite (fun h0 => ?_) fun _ => .pure ⟨.ofNum _, num_eq_iff.mpr h1⟩
    rw [Num.isZero_iff.mp h0] at h1
    exact absurd h1 zero_ne_one

/-- One divided by an expression has the inverse coefficient and the negative degrees. -/
theorem divide_gathers {level : Nat} {x : Expr} (hx : x.scale ≠ 0)
    (hentry : ∀ p ∈ x.powerList, StableEntry p) (hn : ∀ p ∈ x.powerList, Quiet (-p.2.content).2)
    (hd : (x.powers.map Prod.fst).Nodup) :
    Ensures (ProductDraft.empty.absorbAll (sumAt level) [.one] [x])
      (·.Gathers x.scale⁻¹ (-degreesOf x.powers)) Stops := by
  have hone := ProductDraft.absorb_collects (sumAt_addsUp level) .empty .one
    (by rw [zero_add]; exact Canonical.one.properPowers.addable)
  refine Ensures.bind (Ensures.bind hone fun d hd => .pure hd) fun d hd' => ?_
  have hstart : d.Gathers 1 0 := by
    have hgathers := hd'.gathers
    rwa [show Expr.one.scale = 1 from rfl, show Expr.one.powers = 0 from rfl, one_mul, zero_add,
      degreesOf_zero] at hgathers
  refine Ensures.bind (ProductDraft.absorb_gathers (sumAt_addsUp _) hstart hx hentry hn hd
    fun p hp => ?_) fun d' hd' => .pure ?_
  · rw [Finsupp.zero_apply, zero_sub]
    exact hn p hp
  · rwa [one_div, zero_sub] at hd'

theorem content_negativeOne : negativeOne.content = (-1, 0) := content_num _

theorem eq_negativeOne {e : Expr} (h : e.Canonical) (hc : e.content = (-1, 0)) :
    (e == negativeOne) = true :=
  h.eq_of_content (.ofNum _) (hc.trans content_negativeOne.symm)

/-- A base with the degree minus one is no product, unless inversion merges it. -/
theorem Stable.base_of_negative {e b : Expr} (h : e.Stable) (he : e.exposesBase = false)
    (hb : degreesOf e.powers b.fingerprint = (-1, 0)) : b.isProduct = false := by
  have hproper := h.canonical.properPowers
  have hmem : b.fingerprint ∈ e.powers.map Prod.fst := by
    by_contra habsent
    rw [degreesOf_apply_of_notMem habsent] at hb
    exact zero_ne_one (neg_eq_zero.mp (congrArg Prod.fst hb).symm).symm
  rw [powers_eq, factorsFingerprint_eq, Multiset.map_coe, Multiset.mem_coe, List.map_map] at hmem
  obtain ⟨p, hp, hpb⟩ := List.mem_map.mp hmem
  have hexponent : (p.2 == negativeOne) = true := by
    refine eq_negativeOne (h.powerList p hp).exponent.canonical ?_
    rw [← degreesOf_powers hproper hp, ← hb]
    exact congrArg _ hpb
  rw [← isProduct_congr ((beq_iff _ _).mpr hpb)]
  have hone : (Expr.one == negativeOne) = false := rfl
  cases e with
  | num n => cases hp
  | power age base exponent =>
    rw [Expr.powerList] at hp
    split at hp
    all_goals rw [List.mem_singleton] at hp; subst hp
    · exact absurd hexponent (by rw [hone]; exact Bool.false_ne_true)
    · rw [exposesBase, hexponent, Bool.true_and, Bool.or_eq_false_iff] at he
      exact he.1
  | product age c factors =>
    rw [exposesBase, List.any_eq_false] at he
    have hentry := he p hp
    simp only [hexponent, Bool.true_and, Bool.not_eq_true] at hentry
    exact hentry
  | _ =>
    rw [List.mem_singleton.mp hp] at hexponent
    exact absurd hexponent (by rw [hone]; exact Bool.false_ne_true)

/-- An expression that is nothing but a base with the exponent minus one is a power. -/
theorem Stable.base_of_inverse {e b : Expr} (h : e.Stable) (he : e.exposesBase = false)
    (hb : b.Canonical) (hn : b.isNum = false) (h1 : e.scale = 1)
    (hpowers : e.powers = {(b.fingerprint, negativeOne.fingerprint)}) :
    b.isSymbolicPower = false := by
  have hpower : (Expr.power 0 b negativeOne).Canonical :=
    .power 0 hb (.ofNum _) (.of_not_num hn rfl rfl)
  have heq : e.beq (.power 0 b negativeOne) = true := by
    refine h.canonical.eq_of_powers hpower h1 (hpowers.trans ?_)
    rw [powers, hn, if_neg Bool.false_ne_true]
  cases e with
  | power age base exponent =>
    rw [beq, Bool.and_eq_true] at heq
    rw [exposesBase, show (exponent == negativeOne) = true from heq.2, Bool.true_and,
      Bool.or_eq_false_iff, isSymbolicPower_congr heq.1] at he
    exact he.2
  | _ => simp [beq] at heq

/-- The inverse has the inverse coefficient and the negative degrees, unless inversion merges a
base or negation merges a sum in an exponent. -/
theorem ofProduct_inverse {e : Expr} (h : e.Stable) (h0 : e.isZero = false)
    (hn : e.negatesInExponent = false) (he : e.exposesBase = false) :
    Ensures (ofProduct [.one] [e]) (fun r => r.scale = e.scale⁻¹ ∧ ProperPowers r.powers ∧
      degreesOf r.powers = -degreesOf e.powers ∧ ∀ p ∈ r.powerList, StableEntry p) NoFault := by
  have hscale := h.canonical.scale_ne_zero_of_isZero h0
  refine Ensures.noFault ((divide_gathers hscale h.powerList (h.quiet_exponents hn)
    h.canonical.powers_nodup).bind fun d hd => ?_) (ofProduct_finishes _ _)
  have hbase : ∀ p ∈ d.exponents.entries, p.2.isOne = true → p.1.isProduct = false := by
    refine fun p hp h1 => h.base_of_negative he ?_
    have hdegree := (hd.collects.degrees_apply hp).trans (content_of_isOne h1)
    rw [hd.degrees, Finsupp.neg_apply, neg_eq_iff_eq_neg, Prod.neg_mk, neg_zero] at hdegree
    exact hdegree
  have hnested : d.nested = [] := by
    refine List.eq_nil_iff_forall_not_mem.mpr fun b hb => ?_
    obtain ⟨x, hx, hp, h1⟩ := ProductDraft.mem_nested hb
    rw [hbase _ hx h1] at hp
    cases hp
  rw [ProductDraft.finish, ProductDraft.rounds, ProductDraft.flatten_unnested hnested, pure_bind]
  refine (ProductDraft.collapse_powerList hd.collects (inv_ne_zero hscale)
    fun b x hentries h1 hx => ?_).mono (fun r hr => ⟨hr.1, hr.2.1 ▸ hd.collects.properPowers,
      hr.2.1 ▸ hd.degrees, hr.2.2⟩) fun _ => False.elim
  have hmem : (b, x) ∈ d.exponents.entries := by
    rw [hentries]
    exact List.mem_cons_self
  have hentry := hd.collects.entry _ hmem
  refine ⟨hbase _ hmem hx, h.base_of_inverse he hentry.base.canonical hentry.base_not_num ?_ ?_⟩
  · rw [← inv_eq_one, ← hd.collects.coefficient]
    exact Num.isOne_iff.mp h1
  · have hsingle : ProperPowers {(b.fingerprint, negativeOne.fingerprint)} :=
      ⟨Multiset.nodup_singleton _, fun p hp =>
        ⟨negativeOne, .ofNum _, rfl, by rw [Multiset.mem_singleton.mp hp]⟩⟩
    refine degreesOf_injective h.canonical.properPowers hsingle ?_
    rw [← neg_neg (degreesOf e.powers), ← hd.degrees, hentries, factorsFingerprint,
      factorsFingerprint, Multiset.cons_zero, degreesOf_singleton, degreesOf_singleton,
      ← Finsupp.single_neg, content_of_isOne hx, content_negativeOne, Prod.neg_mk, neg_zero]

/-- **Inverting twice leads back**, unless the first inversion merges a base or a sum. -/
theorem inverse_inverse_copies {e : Expr} (h : e.Stable) (h0 : e.isZero = false)
    (hn : e.negatesInExponent = false) (he : e.exposesBase = false) :
    Ensures (do ofProduct [.one] [← ofProduct [.one] [e]]) (Copies e) NoFault := by
  have hscale := h.canonical.scale_ne_zero_of_isZero h0
  have hproper := h.canonical.properPowers
  refine (ofProduct_inverse h h0 hn he).bind fun r hr => ?_
  obtain ⟨hs, hp, hdegrees, hlist⟩ := hr
  have hback : r.scale⁻¹ = e.scale := by rw [hs, inv_inv]
  refine Ensures.noFault ((divide_gathers (hs ▸ inv_ne_zero hscale) hlist (fun p hmem => ?_)
    hp.nodup).bind fun d hd => ?_) (ofProduct_finishes _ _)
  · rw [← degreesOf_powers hp hmem, hdegrees, Finsupp.neg_apply, neg_neg]
    exact hproper.quiet _
  · rw [hback, hdegrees, neg_neg] at hd
    have hcollects := hd.with_powers rfl
    have hpowers : factorsFingerprint d.exponents.entries = e.powers :=
      degreesOf_injective hcollects.properPowers hproper hcollects.degrees
    have hunmerged : d.Unmerged := fun p hmem =>
      (h.entries p.1 p.2 (hpowers ▸ mem_factorsFingerprint hmem)).unmerged
    rw [ProductDraft.finish, ProductDraft.rounds,
      ProductDraft.flatten_unnested hunmerged.nested, pure_bind]
    refine (ProductDraft.collapse_collects hcollects hunmerged hscale).mono (fun r hr => ?_)
      fun _ => False.elim
    exact ⟨hr.stable.canonical, hr.stable.canonical.eq_of_powers h.canonical hr.scale
      (hr.powers.trans hpowers)⟩

/-! ## The laws -/

/-- **The inverse laws**.  Every expression minus itself is zero.  A merged expression is its double
negation, unless it has a sum with the coefficient minus one.  Unless one of its exponents has, it
is one when it is divided by itself, and it is its double inverse, provided that inversion merges
none of its bases. -/
theorem inverse_laws {e : Expr} (he : Obtainable e) :
    (ofSum [(e, .plus), (e, .minus)]).Restores .zero ∧
    (e.Merged → e.negatesSum = false → (do (← e.neg).neg).Restores e) ∧
    (e.Merged → e.isZero = false → e.negatesInExponent = false →
      (ofProduct [e] [e]).Restores .one ∧
      (e.exposesBase = false → (do ofProduct [.one] [← ofProduct [.one] [e]]).Restores e)) := by
  have hc := he.canonical
  exact ⟨(ofSum_opposite hc).restores,
    fun hm hn => (neg_neg_copies ⟨hc, hm⟩ hn).restores,
    fun hm h0 hn => ⟨(ofProduct_self ⟨hc, hm⟩ h0 hn).restores,
      fun hb => (inverse_inverse_copies ⟨hc, hm⟩ h0 hn hb).restores⟩⟩

/-- The laws hold for `2x^-y(x+1)-3/2`. -/
theorem inverse_laws_tower :
    (ofSum [(towerAndSum, .plus), (towerAndSum, .minus)]).Restores .zero ∧
    (do (← towerAndSum.neg).neg).Restores towerAndSum ∧
    (ofProduct [towerAndSum] [towerAndSum]).Restores .one ∧
    (do ofProduct [.one] [← ofProduct [.one] [towerAndSum]]).Restores towerAndSum := by
  have hobtainable : Obtainable towerAndSum :=
    @Obtainable.parse 9 "2x^-y(x+1)-3/2" _ .initial (by cbv)
  obtain ⟨hdifference, hneg, hinverse⟩ := inverse_laws hobtainable
  obtain ⟨hself, hdouble⟩ := hinverse towerAndSum_merged rfl (by decide)
  exact ⟨hdifference, hneg towerAndSum_merged (by decide), hself, hdouble (by decide)⟩

/-- Minus a sum has the sum merged when it is negated, an exponent that is minus a sum likewise, and
a product with the exponent minus one is merged when it is inverted.  The way back is then another
one. -/
theorem inverse_laws_fail :
    ((parse defaultLimit "(x+y)*-1" .initial).1 = .ok opposite ∧
      Alters (do (← opposite.neg).neg) opposite) ∧
    (∃ e, (parse defaultLimit "z^((x+y)*-1)" .initial).1 = .ok e ∧
      Alters (ofProduct [e] [e]) .one) ∧
    (∃ e, (parse defaultLimit "(xy)^-1" .initial).1 = .ok e ∧
      Alters (do ofProduct [.one] [← ofProduct [.one] [e]]) e) := by
  refine ⟨⟨by cbv, ?_⟩, ⟨_, by cbv, _, by cbv, by cbv⟩, ⟨_, by cbv, _, by cbv, by cbv⟩⟩
  have hsum : opposite.neg .initial =
      (.ok (.sum 13 ⟨0, 8⟩ [(.var "x", ⟨1, 10⟩), (.var "y", ⟨1, 12⟩)]), ⟨14, id, true⟩) := by
    rw [neg_of_not_num rfl]
    cbv
  refine ⟨.sum 20 ⟨0, 15⟩ [(.var "x", ⟨-1, 17⟩), (.var "y", ⟨-1, 19⟩)], ?_, by cbv⟩
  rw [run, run_bind, hsum]
  dsimp only
  rw [neg_of_not_num rfl]
  cbv

end Expr

end ExactAlgebra
