import ExactAlgebra.Proofs.Content.Sums

/-!
# Merging nested products

A product among the bases of a product is merged when its exponent has become one, as a sum among
the terms of a sum is.  What the draft holds in the end is determined by the rational factor and the
degrees of the factors, as long as the exponents of one base can be added in any order, which is to
say that no sum among them is merged on the way.

* `productMerging`: which products are due, and what merging them adds.
* `Opens`, `Orderly`: the stages of merging, and that exponents can be added at each of them.
* `ProductDraft.flatten_flattens`: the rounds of the code are rounds of this merging.
* `ofProduct_flattens`: a timely product has the factor and the degrees that its factors are
  flattened to.
* `ofProduct_perm`, `ofProduct_nested`: the order of the factors does not matter, and some of them
  may be multiplied first.
-/

namespace ExactAlgebra

open Build ExactAlgebra.Expr

/-- A rational factor, which is multiplied where other things are added, and degrees. -/
abbrev Extent := Additive ℚ × (ℕ →₀ Content)

noncomputable def extent (xs : List Expr) : Extent :=
  (Additive.ofMul (xs.map scale).prod, degreesOf (xs.map powers).sum)

theorem extent_cons (x : Expr) (xs : List Expr) :
    extent (x :: xs) = (Additive.ofMul x.scale, degreesOf x.powers) + extent xs := by
  rw [extent, extent, List.map_cons, List.map_cons, List.prod_cons, List.sum_cons, ofMul_mul,
    degreesOf_add, Prod.mk_add_mk]

theorem extent_append (xs ys : List Expr) : extent (xs ++ ys) = extent xs + extent ys := by
  rw [extent, extent, extent, List.map_append, List.map_append, List.prod_append, List.sum_append,
    ofMul_mul, degreesOf_add, Prod.mk_add_mk]

/-- This is the fingerprint of a product. -/
def ProductBase (n : ℕ) : Prop :=
  ∃ b : Expr, b.Canonical ∧ b.isProduct = true ∧ b.fingerprint = n

open Classical in
/-- The products with the exponent one. -/
noncomputable def dueProducts (c : Extent) : Finset ℕ :=
  {n ∈ c.2.support | c.2 n = (1, 0) ∧ ProductBase n}

open Classical in
/-- A merged product is taken away as a base, and its factor and degrees are added. -/
noncomputable def productMerging : Merging ℕ Extent where
  due := dueProducts
  change n :=
    if h : ProductBase n then
      (Additive.ofMul h.choose.scale, degreesOf h.choose.powers - Finsupp.single n (1, 0))
    else 0

theorem mem_due_product {c : Extent} {n : ℕ} :
    n ∈ productMerging.due c ↔ c.2 n = (1, 0) ∧ ProductBase n := by
  change n ∈ dueProducts c ↔ _
  simp only [dueProducts, Finset.mem_filter, Finsupp.mem_support_iff, and_iff_right_iff_imp]
  rintro ⟨h1, -⟩
  rw [h1]
  exact fun h => one_ne_zero (congrArg Prod.fst h)

theorem change_product {b : Expr} (hb : b.Canonical) (hp : b.isProduct = true) :
    productMerging.change b.fingerprint = (Additive.ofMul b.scale,
      degreesOf b.powers - Finsupp.single b.fingerprint (1, 0)) := by
  have h : ProductBase b.fingerprint := ⟨b, hb, hp, rfl⟩
  have hbeq : h.choose.beq b = true := (beq_iff _ _).mpr h.choose_spec.2.2
  rw [productMerging]
  simp only [dif_pos h, scale_congr hbeq, powers_congr hbeq]

/-- No product has the exponent one. -/
def QuietDegrees (δ : ℕ →₀ Content) : Prop :=
  ∀ b : Expr, b.Canonical → b.isProduct = true → δ b.fingerprint ≠ (1, 0)

/-- No symbolic power has the exponent one. -/
def Resolved (δ : ℕ →₀ Content) : Prop :=
  ∀ b : Expr, b.Canonical → b.isSymbolicPower = true → δ b.fingerprint ≠ (1, 0)

def ProductFree (M : Multiset (ℕ × ℕ)) : Prop := ∀ p ∈ M, ¬ ProductBase p.1

theorem ProductFree.degreesOf_apply {M : Multiset (ℕ × ℕ)} (h : ProductFree M) {n : ℕ}
    (hn : ProductBase n) : degreesOf M n = 0 := by
  refine degreesOf_apply_of_notMem fun hmem => ?_
  obtain ⟨p, hp, rfl⟩ := Multiset.mem_map.mp hmem
  exact h p hp hn

theorem ProductFree.quietDegrees {M : Multiset (ℕ × ℕ)} (h : ProductFree M) :
    QuietDegrees (degreesOf M) := by
  intro b hb hp h1
  rw [h.degreesOf_apply ⟨b, hb, hp, rfl⟩] at h1
  exact zero_ne_one (congrArg Prod.fst h1)

/-- No product is due iff none has the exponent one. -/
theorem due_product_eq_empty_iff {c : Extent} : productMerging.due c = ∅ ↔ QuietDegrees c.2 := by
  rw [Finset.eq_empty_iff_forall_notMem]
  constructor
  · exact fun h b hb hp h1 => h b.fingerprint (mem_due_product.mpr ⟨h1, b, hb, hp, rfl⟩)
  · intro h n hn
    obtain ⟨h1, b, hb, hp, rfl⟩ := mem_due_product.mp hn
    exact h b hb hp h1

/-! ## Stages of merging -/

/-- Products that have come to the exponent one are merged one by one. -/
inductive Opens : Multiset (ℕ × ℕ) → Multiset (ℕ × ℕ) → Prop where
  | refl (M : Multiset (ℕ × ℕ)) : Opens M M
  | merge {M N : Multiset (ℕ × ℕ)} {b : Expr} (h : Opens M N) (hb : b.Canonical)
    (hp : b.isProduct = true) (h1 : degreesOf N b.fingerprint = (1, 0)) :
    Opens M (N.filter (fun p => p.1 ≠ b.fingerprint) + b.powers)

/-- At every stage of merging these powers, exponents can be added in any order. -/
def Orderly (M : Multiset (ℕ × ℕ)) : Prop := ∀ N, Opens M N → Addable N

/-- The powers that are left of some factors at a stage of merging.  A product that is zero has
none. -/
def Leaves (xs : List Expr) (N : Multiset (ℕ × ℕ)) : Prop :=
  Opens (xs.map powers).sum N ∨ (xs.map scale).prod = 0 ∧ N = 0

theorem Expr.degreesOf_filter_apply (N : Multiset (ℕ × ℕ)) (p : ℕ → Prop) [DecidablePred p]
    (n : ℕ) : degreesOf (N.filter fun q => p q.1) n = if p n then degreesOf N n else 0 := by
  rw [degreesOf, degreesOf, ← collect_filter_apply, Multiset.filter_map]
  rfl

theorem Expr.degreesOf_filter (N : Multiset (ℕ × ℕ)) (n : ℕ) :
    degreesOf (N.filter fun q => q.1 ≠ n) = degreesOf N - Finsupp.single n (degreesOf N n) := by
  rw [← Finsupp.erase_eq_sub_single]
  ext1 k
  rw [degreesOf_filter_apply N (· ≠ n), Finsupp.erase_apply, ite_not]

theorem Opens.trans {L M N : Multiset (ℕ × ℕ)} (h : Opens L M) (h' : Opens M N) : Opens L N := by
  induction h' with
  | refl => exact h
  | merge _ hb hp h1 ih => exact ih.merge hb hp h1

/-- Nothing is merged where no product has the exponent one. -/
theorem Opens.eq_of_quiet {M N : Multiset (ℕ × ℕ)} (h : Opens M N)
    (hq : QuietDegrees (degreesOf M)) : N = M := by
  induction h with
  | refl => rfl
  | merge _ hb hp h1 ih =>
    rw [ih] at h1
    exact absurd h1 (hq _ hb hp)

/-- Without products as bases and sums in exponents, exponents can be added. -/
theorem Orderly.of_plain {M : Multiset (ℕ × ℕ)} (hf : ProductFree M)
    (h : ∀ p ∈ M, Plain (contentOf p.2).2) : Orderly M := by
  intro N hN
  rw [hN.eq_of_quiet hf.quietDegrees]
  exact Addable.of_plain h

/-- Exponents can also be added before the powers of further factors. -/
theorem Orderly.of_add {M L : Multiset (ℕ × ℕ)} (h : ∀ N, Opens M N → Orderly (N + L)) :
    Orderly M :=
  fun N hN => (h N hN _ (.refl _)).mono (Multiset.le_add_right N L)

/-! ## Powers that are added up beforehand -/

/-- What some of the first powers add up to, some of the others add up to as well. -/
structure Coarser (M N : Multiset (ℕ × ℕ)) : Prop where
  degrees : degreesOf M = degreesOf N
  part : ∀ L ≤ M, ∃ K ≤ N, degreesOf K = degreesOf L

namespace Coarser

variable {M N : Multiset (ℕ × ℕ)}

theorem refl (M : Multiset (ℕ × ℕ)) : Coarser M M := ⟨rfl, fun L hL => ⟨L, hL, rfl⟩⟩

/-- Powers that are added up to one for each base. -/
theorem of_nodup (hM : (M.map Prod.fst).Nodup) (h : degreesOf M = degreesOf N) : Coarser M N where
  degrees := h
  part L hL := by
    refine ⟨N.filter fun p => p.1 ∈ L.map Prod.fst, Multiset.filter_le _ N, ?_⟩
    ext1 n
    rw [degreesOf_filter_apply N (· ∈ L.map Prod.fst), ← h]
    split
    next hn =>
      obtain ⟨p, hp, rfl⟩ := Multiset.mem_map.mp hn
      rw [degreesOf_apply_of_mem hM (Multiset.mem_of_le hL hp),
        degreesOf_apply_of_mem (Multiset.nodup_of_le (Multiset.map_le_map hL) hM) hp]
    next hn => exact (degreesOf_apply_of_notMem hn).symm

theorem addable (h : Coarser M N) (hN : Addable N) : Addable M := by
  intro L hL
  obtain ⟨K, hK, hdegrees⟩ := h.part L hL
  rw [← hdegrees]
  exact hN K hK

theorem add (h : Coarser M N) (L : Multiset (ℕ × ℕ)) : Coarser (M + L) (N + L) where
  degrees := by rw [degreesOf_add, degreesOf_add, h.degrees]
  part J hJ := by
    obtain ⟨K, hK, hdegrees⟩ := h.part (J ∩ M) Multiset.inter_le_right
    have hrest : J - J ∩ M ≤ L := by
      rw [Multiset.sub_inter, Multiset.sub_le_iff_le_add, add_comm]
      exact hJ
    refine ⟨K + (J - J ∩ M), add_le_add hK hrest, ?_⟩
    rw [degreesOf_add, hdegrees, ← degreesOf_add, add_tsub_cancel_of_le Multiset.inter_le_left]

/-- Leaving out a base. -/
theorem filter (h : Coarser M N) (n : ℕ) :
    Coarser (M.filter fun p => p.1 ≠ n) (N.filter fun p => p.1 ≠ n) where
  degrees := by rw [degreesOf_filter, degreesOf_filter, h.degrees]
  part L hL := by
    obtain ⟨K, hK, hdegrees⟩ := h.part L (hL.trans (Multiset.filter_le _ M))
    refine ⟨K.filter fun p => p.1 ≠ n, Multiset.filter_le_filter _ hK, ?_⟩
    have hself : L.filter (fun p => p.1 ≠ n) = L :=
      Multiset.filter_eq_self.mpr fun p hp => (Multiset.mem_filter.mp (Multiset.mem_of_le hL hp)).2
    rw [degreesOf_filter, hdegrees, ← degreesOf_filter, hself]

theorem opens (h : Coarser M N) {M' : Multiset (ℕ × ℕ)} (hM : Opens M M') :
    ∃ N', Opens N N' ∧ Coarser M' N' := by
  induction hM with
  | refl => exact ⟨N, .refl N, h⟩
  | @merge M' b _ hb hp h1 ih =>
    obtain ⟨N', hN, hcoarser⟩ := ih
    exact ⟨_, hN.merge hb hp (hcoarser.degrees ▸ h1), (hcoarser.filter _).add _⟩

theorem orderly (h : Coarser M N) (hN : Orderly N) : Orderly M := by
  intro M' hM
  obtain ⟨N', hopens, hcoarser⟩ := h.opens hM
  exact hcoarser.addable (hN N' hopens)

end Coarser

/-! ## Drafts -/

namespace ProductDraft

variable {level : ℕ} {d : ProductDraft} {M : Multiset (ℕ × ℕ)} {c : Extent}

theorem absorb_remembers (d : ProductDraft) (x : Expr) :
    Remembers (d.absorb (sumAt level) x .plus) :=
  (absorb_gives (A := .all) (ρ := fun _ => none) (sumAt_gives level) d x .plus).remembers

theorem unnest_remembers (b : Expr) (d : ProductDraft) : Remembers (d.unnest (sumAt level) b) :=
  (unnest_gives (A := .all) (ρ := fun _ => none) (sumAt_gives level) d b).remembers

theorem unnestAll_remembers (bs : List Expr) (d : ProductDraft) :
    Remembers (bs.foldlM (unnest (sumAt level)) d) :=
  (Gives.foldlM (unnest_gives (A := .all) (ρ := fun _ => none) (sumAt_gives level)) bs d).remembers

theorem flatten_remembers (rounds : ℕ) (d : ProductDraft) :
    Remembers (d.flatten (sumAt level) rounds) :=
  (flatten_gives (A := .all) (ρ := fun _ => none) (sumAt_gives level) rounds d).remembers

theorem collapse_remembers (d : ProductDraft) : Remembers d.collapse :=
  (collapse_gives (A := .all) (ρ := fun _ => none) d).remembers

/-- At some stage of merging these powers, the draft holds this factor and these degrees. -/
def Carries (d : ProductDraft) (M : Multiset (ℕ × ℕ)) (c : Extent) : Prop :=
  ∃ q N, Opens M N ∧ d.Collects q N ∧ (Additive.ofMul q, degreesOf N) = c

theorem absorbFactors_carries {xs : List Expr} (hx : ∀ x ∈ xs, x.Stable)
    (ha : Addable (xs.map powers).sum) : Timely (ProductDraft.empty.absorbAll (sumAt level) xs [])
      (·.Carries (xs.map powers).sum (extent xs)) := by
  have hremembers := (absorbAll_gives (A := .all) (ρ := fun _ => none) (sumAt_gives level) xs []
    .empty).remembers
  refine (Timely.of_ensures (absorbFactors_collects (sumAt_addsUp level) hx ha) (fun _ => id)
    hremembers).imp fun d hd => ?_
  exact ⟨_, _, .refl _, hd, rfl⟩

/-- Taking out a base with the exponent one. -/
theorem Collects.erase {q : ℚ} {N : Multiset (ℕ × ℕ)} (h : d.Collects q N) {b e : Expr}
    (he : d.exponents.get? b = some e) (h1 : e.isOne = true) :
    degreesOf N b.fingerprint = (1, 0) ∧
      ProductDraft.Collects { d with exponents := d.exponents.erase b } q
        (N.filter fun p => p.1 ≠ b.fingerprint) := by
  have hdegree : degreesOf N b.fingerprint = (1, 0) := by
    rw [← (h.present b).content, he, Option.getD_some, content_of_isOne h1]
  refine ⟨hdegree, h.distinct.erase b, fun p hp => h.entry p (List.mem_of_mem_eraseP hp),
    h.coefficient, ?_⟩
  have htotal := Ledger.total_eq_of_get? fingerprint content he fun _ hk => eq_iff.mp hk
  rw [degreesOf_filter, hdegree, ← h.degrees, degreesOf_entries, degreesOf_entries, htotal,
    content_of_isOne h1, add_sub_cancel_left]

/-- A timely merge changes what the draft holds as merging does. -/
theorem unnest_carries (ho : Orderly M) (h : d.Carries M c) {b : Expr}
    (hb : b.Stable) (hp : b.isProduct = true) : Timely (d.unnest (sumAt level) b)
      (·.Carries M (c + productMerging.change b.fingerprint)) := by
  obtain ⟨q, N, hopens, hcollects, rfl⟩ := h
  unfold unnest
  split
  next e he =>
    refine .observe_bind (fun h1 => ?_) (absorb_remembers _ _)
    obtain ⟨hdegree, herase⟩ := hcollects.erase he h1
    have hmerge := hopens.merge hb.canonical hp hdegree
    have habsorb := absorb_collects (sumAt_addsUp level) herase hb (ho _ hmerge)
    refine (Timely.of_ensures habsorb (fun _ => id) (absorb_remembers _ _)).imp fun d' hd => ?_
    refine ⟨_, _, hmerge, hd, ?_⟩
    rw [change_product hb.canonical hp, degreesOf_add, degreesOf_filter, hdegree, ofMul_mul,
      Prod.mk_add_mk, sub_add_eq_add_sub, add_sub_assoc]
  next => exact .observe_bind (fun h => by cases h) fun s hs => hs

/-- All that is listed is merged. -/
theorem unnestAll_carries (ho : Orderly M) (h : d.Carries M c) {bs : List Expr}
    (hb : ∀ b ∈ bs, b.Stable ∧ b.isProduct = true) : Timely (bs.foldlM (unnest (sumAt level)) d)
      (·.Carries M (c + (bs.map fun b => productMerging.change b.fingerprint).sum)) := by
  induction bs generalizing d c with
  | nil =>
    rw [List.map_nil, List.sum_nil, add_zero]
    exact .pure fun _ => h
  | cons b bs ih =>
    rw [List.forall_mem_cons] at hb
    rw [List.foldlM_cons, List.map_cons, List.sum_cons, ← add_assoc]
    exact (unnest_carries ho h hb.1.1 hb.1.2).bind (fun d' hd => ih hd hb.2)
      (unnestAll_remembers bs)

theorem Carries.mem_nested (h : d.Carries M c) {b : Expr} (hb : b ∈ d.nested) :
    b.Stable ∧ b.isProduct = true ∧ c.2 b.fingerprint = (1, 0) := by
  obtain ⟨q, N, -, hcollects, rfl⟩ := h
  obtain ⟨e, he, hp, h1⟩ := ProductDraft.mem_nested hb
  exact ⟨(hcollects.entry _ he).base, hp,
    (hcollects.degrees_apply he).trans (content_of_isOne h1)⟩

/-- The bases that are listed are those that are due. -/
theorem Carries.lists (h : d.Carries M c) :
    productMerging.Lists fingerprint d.nested c where
  nodup := by
    obtain ⟨q, N, -, hcollects, -⟩ := h
    have hall := hcollects.properPowers.nodup
    rw [factorsFingerprint_eq, Multiset.map_coe, Multiset.coe_nodup, List.map_map] at hall
    rw [nested, List.map_map]
    exact hall.sublist (List.Sublist.map _ List.filter_sublist)
  mem_due n := by
    rw [mem_due_product, List.mem_map]
    constructor
    · rintro ⟨h1, b, hb, hp, rfl⟩
      obtain ⟨q, N, -, hcollects, rfl⟩ := h
      have hpresent := hcollects.present b
      rw [h1] at hpresent
      cases he : d.exponents.get? b with
      | none =>
        rw [he, Option.getD_none] at hpresent
        have h0 := congrArg Prod.fst (content_zero.symm.trans hpresent.content)
        exact absurd h0 zero_ne_one
      | some e =>
        rw [he, Option.getD_some] at hpresent
        have hone : e.isOne = true := isOne_congr
          (hpresent.stable.canonical.eq_of_content .one (hpresent.content.trans content_one.symm))
        obtain ⟨k, hk, hperm⟩ := Ledger.perm_erase he
        have hmem : (k, e) ∈ d.exponents.entries := hperm.mem_iff.mpr List.mem_cons_self
        refine ⟨k, List.mem_map_of_mem (List.mem_filter.mpr ⟨hmem, ?_⟩), eq_iff.mp hk⟩
        rw [Bool.and_eq_true]
        exact ⟨(isProduct_congr hk).trans hp, hone⟩
    · rintro ⟨b, hb, rfl⟩
      obtain ⟨hstable, hp, h1⟩ := h.mem_nested hb
      exact ⟨h1, b, hstable.canonical, hp, rfl⟩

/-- The rounds of a timely run are rounds of merging. -/
theorem flatten_flattens (ho : Orderly M) (rounds : ℕ) (h : d.Carries M c) :
    Timely (d.flatten (sumAt level) rounds)
      fun d' => ∃ c', productMerging.Flattens c c' ∧ d'.Carries M c' ∧ d'.nested = [] := by
  induction rounds generalizing d c with
  | zero => exact .throw fun _ => rfl
  | succ rounds ih =>
    rw [flatten]
    split
    next hnil => exact .pure fun _ => ⟨c, .done (h.lists.due_eq_empty_iff.mpr hnil), h, hnil⟩
    next hne =>
      have hall : Timely (d.nested.foldlM (unnest (sumAt level)) d)
          (·.Carries M (productMerging.round c)) := by
        rw [h.lists.round_eq]
        exact unnestAll_carries ho h fun b hb => ⟨(h.mem_nested hb).1, (h.mem_nested hb).2.1⟩
      refine hall.bind (fun d' hd => ?_) fun d' => flatten_remembers rounds d'
      refine (ih hd).imp fun d'' hd' => ?_
      obtain ⟨c', hflattens, hcarries⟩ := hd'
      exact ⟨c', .round (fun hdue => hne (h.lists.due_eq_empty_iff.mp hdue)) hflattens, hcarries⟩

end ProductDraft

/-! ## Results -/

/-- What a product with this factor and these degrees comes to. -/
structure Comes (c : Extent) (r : Expr) : Prop where
  canonical : r.Canonical
  fingerprint : ∃ P, ProperPowers P ∧ degreesOf P = c.2 ∧
    r.fingerprint = if c.1.toMul = 0 then Expr.zero.fingerprint else assemble c.1.toMul P

/-- **The factor and the degrees determine a product.** -/
theorem Comes.eq {c : Extent} {r r' : Expr} (h : Comes c r) (h' : Comes c r') :
    (r == r') = true := by
  obtain ⟨P, hP, hdegrees, hr⟩ := h.fingerprint
  obtain ⟨P', hP', hdegrees', hr'⟩ := h'.fingerprint
  rw [eq_iff, hr, hr', degreesOf_injective hP hP' (hdegrees.trans hdegrees'.symm)]

theorem Comes.eq_zero {c : Extent} {r : Expr} (h : Comes c r) (h0 : c.1.toMul = 0) :
    (r == Expr.zero) = true := by
  obtain ⟨P, -, -, hr⟩ := h.fingerprint
  rw [eq_iff, hr, if_pos h0]

theorem Expr.ofPower_fingerprint {b e : Expr} (hn : b.isNum = false) (h0 : e.isZero = false) :
    Ensures (ofPower b e)
      (fun r => r.fingerprint = assemble 1 {(b.fingerprint, e.fingerprint)}) NoFault := by
  rw [ofPower_symbolic hn, h0, if_neg Bool.false_ne_true, assemble_singleton]
  refine .ite (fun h1 => .pure ?_) fun h1 => Ensures.fresh.bind fun age _ => .pure ?_
  · rw [if_pos (isOne_iff.mp h1)]
  · rw [if_neg fun he => h1 (isOne_iff.mpr he)]
    rfl

namespace ProductDraft

variable {d : ProductDraft} {q : ℚ} {N : Multiset (ℕ × ℕ)}

/-- The finished product is the one with the coefficient and the degrees of the draft. -/
theorem collapse_comes (h : d.Collects q N) (hn : d.nested = []) :
    Ensures d.collapse (Comes (Additive.ofMul q, degreesOf N)) NoFault := by
  have hshape : Ensures d.collapse (fun r => r.Canonical → r.fingerprint =
      if q = 0 then Expr.zero.fingerprint
      else assemble q (factorsFingerprint d.exponents.entries)) NoFault := by
    rw [← h.coefficient]
    refine .ite (fun h0 => .pure fun _ => (if_pos (Num.isZero_iff.mp h0)).symm) fun h0 => ?_
    rw [if_neg (mt Num.isZero_iff.mpr h0)]
    split
    next hd =>
      rw [hd]
      exact .pure fun hr => hr.fingerprint_eq
    next b e hd =>
      have hentry := h.entry (b, e) (by rw [hd]; exact List.mem_cons_self)
      rw [hd]
      refine .ite (fun h1 => ?_) fun _ => Ensures.fresh.bind fun age _ => .pure fun hr =>
        hr.fingerprint_eq
      rw [Num.isOne_iff.mp h1]
      exact (ofPower_fingerprint hentry.base_not_num hentry.exponent_ne_zero).imp fun r hr _ => hr
    next =>
      refine Ensures.fresh.bind fun age _ => .pure fun hr => ?_
      rw [hr.fingerprint_eq, powers, factorsFingerprint_eq, factorsFingerprint_eq,
        Multiset.coe_eq_coe.mpr ((Ledger.sorted_perm _ _).map _)]
      rfl
  refine ((collapse_canonical h.sound hn).and hshape).mono (fun r hr => ⟨hr.1, _, h.properPowers,
    h.degrees, hr.2 hr.1⟩) fun _ h => h.2

/-- Without symbolic powers that have come to the exponent one, nothing is left to be merged. -/
theorem Collects.unmerged (h : d.Collects q N) (hn : d.nested = [])
    (hs : Resolved (degreesOf N)) : d.Unmerged := by
  intro p hp h1
  constructor
  · by_contra hprod
    rw [not_nested hn hp (by simpa using hprod)] at h1
    cases h1
  · by_contra hpower
    exact hs p.1 (h.entry p hp).base.canonical (by simpa using hpower)
      ((h.degrees_apply hp).trans (content_of_isOne h1))

end ProductDraft

namespace Expr

/-- What a product comes to, at which stage of merging, and that it is stable if no symbolic power
is left to be merged. -/
structure Becomes (xs : List Expr) (c : Extent) (r : Expr) : Prop where
  comes : Comes c r
  stage : ∃ N, Opens (xs.map powers).sum N ∧ degreesOf N = c.2
  factor : Resolved c.2 → c.1.toMul ≠ 0 →
    r.Stable ∧ (Additive.ofMul r.scale, degreesOf r.powers) = c

theorem collapse_becomes {xs : List Expr} {d : ProductDraft} {c : Extent}
    (h : d.Carries (xs.map powers).sum c) (hn : d.nested = []) :
    Ensures d.collapse (Becomes xs c) NoFault := by
  obtain ⟨q, N, hopens, hcollects, rfl⟩ := h
  have hstable : Ensures d.collapse (fun r => Resolved (degreesOf N) → q ≠ 0 →
      r.Stable ∧ (Additive.ofMul r.scale, degreesOf r.powers) = (Additive.ofMul q, degreesOf N))
      fun _ => True := by
    by_cases hall : Resolved (degreesOf N) ∧ q ≠ 0
    · have hunmerged := hcollects.unmerged hn hall.1
      refine (ProductDraft.collapse_collects hcollects hunmerged hall.2).mono (fun r hr _ _ => ?_)
        fun _ _ => trivial
      rw [hr.scale, hr.powers, hcollects.degrees]
      exact ⟨hr.stable, rfl⟩
    · exact d.collapse.ensures_true.imp fun r _ hs hq => absurd ⟨hs, hq⟩ hall
  exact ((ProductDraft.collapse_comes hcollects hn).and hstable).mono
    (fun _ hr => ⟨hr.1, ⟨N, hopens, rfl⟩, hr.2⟩) fun _ h => h.1

/-- **A timely product has the factor and the degrees that those of its factors are flattened to**,
as long as exponents can be added. -/
theorem ofProduct_flattens {xs : List Expr} (hx : ∀ x ∈ xs, x.Stable)
    (ho : Orderly (xs.map powers).sum) : Timely (ofProduct xs []) fun r =>
      ∃ c, productMerging.Flattens (extent xs) c ∧ Becomes xs c r := by
  refine (ProductDraft.absorbFactors_carries hx (ho _ (.refl _))).bind (fun d hd => ?_) fun d =>
    (ProductDraft.flatten_remembers _ d).bind ProductDraft.collapse_remembers
  refine (ProductDraft.flatten_flattens ho d.rounds hd).bind (fun d' hd' => ?_)
    ProductDraft.collapse_remembers
  obtain ⟨c, hflattens, hcarries, hnested⟩ := hd'
  refine (Timely.of_ensures (collapse_becomes hcarries hnested) (fun _ => False.elim)
    (ProductDraft.collapse_remembers d')).imp fun r hr => ?_
  exact ⟨c, hflattens, hr⟩

theorem ofProduct_remembers (xs : List Expr) : Remembers (ofProduct xs []) :=
  (ofProduct_gives (A := .all) (ρ := fun _ => none) xs []).remembers

/-- The order of the factors does not matter. -/
theorem ofProduct_perm {xs ys : List Expr} (h : ∀ x ∈ xs, x.Stable)
    (ho : Orderly (xs.map powers).sum) (hperm : ys.Perm xs) :
    Agree (ofProduct ys []) (ofProduct xs []) := by
  have hpowers : (ys.map powers).sum = (xs.map powers).sum := (hperm.map _).sum_eq
  have hextent : extent ys = extent xs := by
    rw [extent, extent, hpowers, (hperm.map scale).prod_eq]
  have hys := ofProduct_flattens (fun x hx => h x (hperm.mem_iff.mp hx)) (hpowers ▸ ho)
  rw [hextent] at hys
  refine hys.agree (ofProduct_flattens h ho) (ofProduct_finishes _ _) (ofProduct_finishes _ _) ?_
  rintro r r' ⟨c, hc, hr⟩ ⟨c', hc', hr'⟩
  obtain rfl := hc.unique hc'
  exact hr.comes.eq hr'.comes

/-- A merged product has a rational factor other than zero. -/
theorem change_product_ne_zero (n : ℕ) : (productMerging.change n).1.toMul ≠ 0 := by
  by_cases hn : ProductBase n
  · obtain ⟨b, hb, hp, rfl⟩ := hn
    rw [change_product hb hp]
    refine hb.scale_ne_zero ?_
    cases b with
    | product age c factors => rfl
    | _ => cases hp
  · rw [productMerging]
    simp only [dif_neg hn]
    exact one_ne_zero

/-- Merging makes no rational factor zero, and none other than zero. -/
theorem flattens_eq_zero_iff {c c' : Extent} (h : productMerging.Flattens c c') :
    c'.1.toMul = 0 ↔ c.1.toMul = 0 := by
  refine h.preserves (P := fun d => d.1.toMul = 0 ↔ c.1.toMul = 0) (fun d n hd => ?_) Iff.rfl
  rw [Prod.fst_add, toMul_add, mul_eq_zero, or_iff_left (change_product_ne_zero n)]
  exact hd

/-- What a product leaves is a stable factor of others, if no symbolic power is left to be
merged. -/
theorem Becomes.stable {xs : List Expr} {c : Extent} {r : Expr}
    (hc : productMerging.Flattens (extent xs) c) (h : Becomes xs c r) (hs : Resolved c.2) :
    r.Stable ∧ (∃ N, Leaves xs N ∧ Coarser r.powers N) ∧
      ((Additive.ofMul r.scale, degreesOf r.powers) = c ∨ c.1.toMul = 0 ∧ r.scale = 0) := by
  by_cases h0 : c.1.toMul = 0
  · have hzero := h.comes.eq_zero h0
    obtain ⟨n, rfl⟩ : ∃ n, r = .num n := r.num_or.resolve_right fun hn => by
      rw [isNum_congr hzero] at hn
      cases hn
    have hnone : Leaves xs 0 := .inr ⟨(flattens_eq_zero_iff hc).mp h0, rfl⟩
    exact ⟨.num n, ⟨0, hnone, .refl _⟩, .inr ⟨h0, scale_congr hzero⟩⟩
  · obtain ⟨hstable, hextent⟩ := h.factor hs h0
    obtain ⟨N, hN, hdegrees⟩ := h.stage
    have hcoarser := Coarser.of_nodup hstable.canonical.powers_nodup
      ((congrArg Prod.snd hextent).trans hdegrees.symm)
    exact ⟨hstable, ⟨N, .inl hN, hcoarser⟩, .inl hextent⟩

/-- Some of the factors may be multiplied first, unless the others make a difference to which
products this merges. -/
theorem ofProduct_nested {xs ys : List Expr} (h : ∀ x ∈ xs ++ ys, x.Stable)
    (ho : ∀ N, Leaves xs N → Orderly (N + (ys.map powers).sum))
    (hs : ∀ c, productMerging.Flattens (extent xs) c → Resolved c.2)
    (hb : productMerging.Undisturbed (extent xs) (extent ys)) :
    Agree (do ofProduct ((← ofProduct xs []) :: ys) []) (ofProduct (xs ++ ys) []) := by
  have hstable := List.forall_mem_append.mp h
  have hstages : ∀ N, Opens (xs.map powers).sum N → Orderly (N + (ys.map powers).sum) :=
    fun N hN => ho N (.inl hN)
  have hnested : Timely (do ofProduct ((← ofProduct xs []) :: ys) []) fun r' =>
      ∃ c, productMerging.Flattens (extent xs) c ∧
        ((∃ c', productMerging.Flattens (c + extent ys) c' ∧ Comes c' r') ∨
          c.1.toMul = 0 ∧ (r' == Expr.zero) = true) := by
    refine (ofProduct_flattens hstable.1 (.of_add hstages)).bind (fun r hr => ?_) fun r =>
      ofProduct_remembers _
    obtain ⟨c, hc, hbecomes⟩ := hr
    obtain ⟨hrs, ⟨N, hN, hcoarser⟩, hfactor⟩ := hbecomes.stable hc (hs c hc)
    have horderly : Orderly ((r :: ys).map powers).sum := by
      rw [List.map_cons, List.sum_cons]
      exact (hcoarser.add _).orderly (ho N hN)
    refine (ofProduct_flattens (List.forall_mem_cons.mpr ⟨hrs, hstable.2⟩) horderly).imp
      fun r' hr' => ?_
    obtain ⟨c', hc', hr'⟩ := hr'
    rw [extent_cons] at hc'
    rcases hfactor with hrc | ⟨h0, hscale⟩
    · rw [hrc] at hc'
      exact ⟨c, hc, .inl ⟨c', hc', hr'.comes⟩⟩
    · refine ⟨c, hc, .inr ⟨h0, hr'.comes.eq_zero ((flattens_eq_zero_iff hc').mpr ?_)⟩⟩
      rw [Prod.fst_add, toMul_add, hscale]
      exact zero_mul _
  have htogether := ofProduct_flattens h (by
    rw [List.map_append, List.sum_append]
    exact hstages _ (.refl _))
  refine hnested.agree htogether (Ensures.bind (ofProduct_finishes _ _)
    fun r _ => ofProduct_finishes _ _) (ofProduct_finishes _ _) ?_
  rintro r r' ⟨c, hc, hr⟩ ⟨c₂, hc₂, hr'⟩
  rw [extent_append] at hc₂
  have hlater := hc.resume hb hc₂
  rcases hr with ⟨c', hc', hr⟩ | ⟨h0, hr⟩
  · obtain rfl := hc'.unique hlater
    exact hr.eq hr'.comes
  · have hzero : (c + extent ys).1.toMul = 0 := by
      rw [Prod.fst_add, toMul_add, h0, zero_mul]
    exact BEq.trans hr (BEq.symm (hr'.comes.eq_zero ((flattens_eq_zero_iff hlater).mpr hzero)))

end Expr

end ExactAlgebra
