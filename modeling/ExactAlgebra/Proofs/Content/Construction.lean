import ExactAlgebra.Proofs.Calculation
import ExactAlgebra.Proofs.Canonical.Draft
import ExactAlgebra.Proofs.Content.Merged
import ExactAlgebra.Proofs.Meaning.Draft
import ExactAlgebra.Proofs.Termination

/-!
# Constructions add up

A sum has the contents of its terms together, unless this makes the coefficient of a sum one, so
that the sum is merged.  A product has the degrees of its factors together, as far as the exponents
of one base add up in this sense.  Exponents are added by sums and single terms are multiplied by
products, so the two statements are proved level by level, as the constructions call each other.

A construction that exhausts its levels promises nothing here; that none ever does is known.

* `AddsUp`: the sum has the contents of its terms.
* `ProductDraft.Collects`, `SumDraft.Collects`: what the drafts hold.
* `ProductDraft.absorbFactors_collects`, `SumDraft.absorbAll_collects`: factors and terms add what
  they hold.
* `ofProduct_powers`: products of factors without a common base collect powers.
* `ofSum_content`: sums have the contents of their terms.
-/

namespace ExactAlgebra

open Build ExactAlgebra.Expr

abbrev NoFault : Fault → Prop := fun _ => False

/-- The construction fails in no way but that it exhausts its steps. -/
abbrev Stops : Fault → Prop := fun e => e = .exhausted

theorem Build.Ensures.noFault {α : Type} {m : Build α} {P Q : α → Prop} (h : Ensures m P Stops)
    (hm : Finishes m Q) : Ensures m P NoFault :=
  (h.and hm).mono (fun _ h => h.1) fun _ h => h.2 h.1

namespace Expr

/-- What signed terms add to a sum together. -/
noncomputable def totalContent (terms : SignedTerms) : Content :=
  (terms.map fun p => p.2.toNum.value • p.1.content).sum

/-- The factors of a product with this rational factor and these powers. -/
structure Multiplies (q : ℚ) (M : Multiset (ℕ × ℕ)) (factors divisors : List Expr) : Prop where
  stable : ∀ x ∈ factors, x.Stable
  no_divisors : divisors = []
  scale : (factors.map Expr.scale).prod = q
  powers : (factors.map Expr.powers).sum = M

/-- The terms of a sum with this content. -/
structure Adds (c : Content) (terms : SignedTerms) : Prop where
  stable : ∀ p ∈ terms, p.1.Stable
  content : totalContent terms = c

/-- A sum of stable terms is stable and has the contents of the terms, unless sums are merged. -/
def AddsUp (sum : SignedTerms → Build Expr) : Prop :=
  ∀ terms : SignedTerms, (∀ p ∈ terms, p.1.Stable) → Quiet (totalContent terms).2 →
    Ensures (sum terms) (HasContent (totalContent terms)) Stops

theorem totalContent_cons (p : Expr × Sign) (terms : SignedTerms) :
    totalContent (p :: terms) = p.2.toNum.value • p.1.content + totalContent terms := by
  rw [totalContent, List.map_cons, List.sum_cons, totalContent]

theorem totalContent_plus (e : Expr) (terms : SignedTerms) :
    totalContent ((e, .plus) :: terms) = e.content + totalContent terms := by
  rw [totalContent_cons, show Sign.plus.toNum.value = 1 from rfl, one_smul]

theorem totalContent_single (e : Expr) : totalContent [(e, .plus)] = e.content := by
  rw [totalContent_plus, totalContent, List.map_nil, List.sum_nil, add_zero]

theorem totalContent_append (terms others : SignedTerms) :
    totalContent (terms ++ others) = totalContent terms + totalContent others := by
  rw [totalContent, List.map_append, List.sum_append, totalContent, totalContent]

end Expr

/-! ## Products -/

namespace ProductDraft

/-- The draft has this coefficient, and its exponents are what these powers add up to. -/
structure Collects (d : ProductDraft) (q : ℚ) (M : Multiset (ℕ × ℕ)) : Prop where
  distinct : d.exponents.Distinct
  entry : ∀ p ∈ d.exponents.entries, StableEntry p
  coefficient : d.coefficient.value = q
  degrees : degreesOf (factorsFingerprint d.exponents.entries) = degreesOf M

theorem degreesOf_entries (l : Ledger Expr Expr) :
    degreesOf (factorsFingerprint l.entries) = l.total fingerprint content := by
  rw [degreesOf, Ledger.total, factorsFingerprint_eq, Multiset.map_coe, List.map_map]
  refine congrArg collect (congrArg _ (List.map_congr_left fun p _ => ?_))
  rw [Function.comp_apply, contentOf_fingerprint]

theorem factorsFingerprint_append (factors others : List (Expr × Expr)) :
    factorsFingerprint (factors ++ others) =
      factorsFingerprint factors + factorsFingerprint others := by
  rw [factorsFingerprint_eq, factorsFingerprint_eq, factorsFingerprint_eq, List.map_append,
    Multiset.coe_add]

variable {d : ProductDraft} {q : ℚ} {M : Multiset (ℕ × ℕ)}

theorem Collects.empty : ProductDraft.empty.Collects 1 0 where
  distinct := .empty
  entry := List.forall_mem_nil _
  coefficient := rfl
  degrees := rfl

theorem Collects.sound (h : d.Collects q M) : d.Sound :=
  ⟨h.distinct, fun p hp => ⟨⟨(h.entry p hp).base.canonical, (h.entry p hp).base_not_num⟩,
    (h.entry p hp).exponent.canonical, (h.entry p hp).exponent_ne_zero⟩⟩

/-- The entries of the draft are the powers of a product. -/
theorem Collects.properPowers (h : d.Collects q M) :
    ProperPowers (factorsFingerprint d.exponents.entries) where
  nodup := by
    rw [factorsFingerprint_eq, Multiset.map_coe, Multiset.coe_nodup, List.map_map, List.Nodup,
      List.pairwise_map]
    refine h.distinct.imp fun {p r} hpr hf => ?_
    rw [eq_iff.mpr hf] at hpr
    cases hpr
  exponent p hp := by
    rw [factorsFingerprint_eq, Multiset.mem_coe] at hp
    obtain ⟨r, hr, rfl⟩ := List.mem_map.mp hp
    exact ⟨r.2, (h.entry r hr).exponent.canonical, (h.entry r hr).exponent_ne_zero, rfl⟩

/-- The powers add up to the contents of the exponents. -/
theorem Collects.degrees_apply (h : d.Collects q M) {p : Expr × Expr}
    (hp : p ∈ d.exponents.entries) : degreesOf M p.1.fingerprint = p.2.content := by
  rw [← h.degrees]
  exact h.properPowers.degreesOf_apply (mem_factorsFingerprint hp)

/-- The exponent of a base, or zero if the base has no entry. -/
theorem Collects.present (h : d.Collects q M) (b : Expr) :
    HasContent (degreesOf M b.fingerprint) ((d.exponents.get? b).getD .zero) := by
  cases hg : d.exponents.get? b with
  | none =>
    have habsent : b.fingerprint ∉ (factorsFingerprint d.exponents.entries).map Prod.fst := by
      rw [factorsFingerprint_eq, Multiset.map_coe, Multiset.mem_coe, List.map_map]
      intro hmem
      obtain ⟨p, hp, hpb⟩ := List.mem_map.mp hmem
      have hkey := (Ledger.get?_eq_none hg).1 p hp
      rw [show (p.1 == b) = true from eq_iff.mpr hpb] at hkey
      cases hkey
    rw [← h.degrees, degreesOf_apply_of_notMem habsent]
    exact ⟨.num _, content_zero⟩
  | some old =>
    obtain ⟨k, hk, hperm⟩ := Ledger.perm_erase hg
    have hmem : (k, old) ∈ d.exponents.entries := hperm.mem_iff.mpr List.mem_cons_self
    rw [← eq_iff.mp hk]
    exact ⟨(h.entry _ hmem).exponent, (h.degrees_apply hmem).symm⟩

variable {sum : SignedTerms → Build Expr} (hsum : AddsUp sum)

include hsum in
theorem addExponents_content {a b : Expr} (ha : a.Stable) (hb : b.Stable)
    (hq : Quiet (a.content + b.content).2) : Ensures (addExponents sum a b)
      (HasContent (a.content + b.content)) Stops := by
  unfold addExponents
  split
  · refine (Num.add_ensures _ _).bind fun m hm => .pure ⟨.num m, ?_⟩
    rw [content_num, content_num, content_num, hm, Prod.mk_add_mk, add_zero]
  · have htotal : totalContent [(a, .plus), (b, .plus)] = a.content + b.content := by
      rw [totalContent_plus, totalContent_single]
    rw [← htotal] at hq ⊢
    refine hsum _ ?_ hq
    simpa using ⟨ha, hb⟩

include hsum in
/-- An exponent is added to that of its base. -/
theorem enter_collects {b e : Expr} (h : d.Collects q M) (hentry : StableEntry (b, e))
    (ha : Addable (M + {(b.fingerprint, e.fingerprint)})) :
    Ensures (d.enter sum b e) (·.Collects q (M + {(b.fingerprint, e.fingerprint)})) Stops := by
  have hpresent := h.present b
  have hquiet : Quiet (((d.exponents.get? b).getD .zero).content + e.content).2 := by
    have hall := ha _ le_rfl b.fingerprint
    rwa [degreesOf_add, degreesOf_singleton, Finsupp.add_apply, Finsupp.single_eq_same,
      ← hpresent.content] at hall
  rw [enter_eq]
  refine (addExponents_content hsum hpresent.stable hentry.exponent hquiet).bind fun x hx =>
    .pure ⟨h.distinct.store _ _ _, ?_, h.coefficient, ?_⟩
  · have hall : d.exponents.All (fun b => b.Stable ∧ b.isNum = false)
        fun e => e.Stable ∧ e.isZero = false := fun p hp =>
      ⟨⟨(h.entry p hp).base, (h.entry p hp).base_not_num⟩, (h.entry p hp).exponent,
        (h.entry p hp).exponent_ne_zero⟩
    intro p hp
    obtain ⟨⟨hb, hn⟩, he, h0⟩ := hall.store ⟨hentry.base, hentry.base_not_num⟩
      (fun h0 => ⟨hx.stable, h0⟩) p hp
    exact ⟨hb, hn, he, h0⟩
  · rw [degreesOf_add, degreesOf_singleton, ← h.degrees, degreesOf_entries, degreesOf_entries]
    exact Ledger.total_combine _ _ _ (fun _ hk => eq_iff.mp hk) content_of_isZero content_zero
      hx.content

include hsum in
theorem enterAll_collects {factors : List (Expr × Expr)} (h : d.Collects q M)
    (hf : ∀ p ∈ factors, StableEntry p) (ha : Addable (M + factorsFingerprint factors)) :
    Ensures (d.enterAll sum .plus factors)
      (·.Collects q (M + factorsFingerprint factors)) Stops := by
  induction factors generalizing d M with
  | nil =>
    rw [factorsFingerprint, add_zero]
    exact .pure h
  | cons p factors ih =>
    obtain ⟨b, e⟩ := p
    rw [List.forall_mem_cons] at hf
    rw [factorsFingerprint, ← Multiset.singleton_add, ← add_assoc] at ha ⊢
    rw [enterAll, List.foldlM_cons]
    exact (enter_collects hsum h hf.1 (ha.mono (Multiset.le_add_right _ _))).bind fun d' hd =>
      ih hd hf.2 ha

/-- Absorbing a factor scales the coefficient and enters the powers of the factor. -/
theorem absorb_plus {x : Expr} {P : ProductDraft → Prop} {F : Fault → Prop}
    (h : ∀ c : Num, c.value = d.coefficient.value * x.scale →
      Ensures (({ d with coefficient := c } : ProductDraft).enterAll sum .plus x.powerList) P F) :
    Ensures (d.absorb sum x .plus) P F := by
  have hself : ∀ b e : Expr,
      Ensures (({ d with coefficient := d.coefficient } : ProductDraft).enterAll sum .plus [(b, e)])
        P F → Ensures (d.enter sum b e) P F := by
    intro b e hd
    rw [enterAll, List.foldlM_cons] at hd
    simpa [signedExponent] using hd
  have hone := h d.coefficient
  cases x with
  | num n => exact (Num.multiply_ensures _ _).bind fun c hc => h c hc
  | var name => exact hself _ _ (hone (mul_one _).symm)
  | power age b e =>
    have hone := hone (mul_one _).symm
    rw [powerList] at hone
    rw [absorb]
    split
    next hn =>
      rw [if_pos hn] at hone
      exact hself _ _ hone
    next hn =>
      rw [if_neg hn] at hone
      exact hself _ _ hone
  | product age c factors => exact (Num.multiply_ensures _ _).bind fun c' hc' => h c' hc'
  | sum age c summands => exact hself _ _ (hone (mul_one _).symm)

include hsum in
/-- A factor multiplies the coefficient and adds its powers. -/
theorem absorb_collects {x : Expr} (h : d.Collects q M) (hx : x.Stable)
    (ha : Addable (M + x.powers)) :
    Ensures (d.absorb sum x .plus) (·.Collects (q * x.scale) (M + x.powers)) Stops := by
  rw [powers_eq] at ha ⊢
  refine absorb_plus fun c hc => enterAll_collects hsum ⟨h.distinct, h.entry, ?_, h.degrees⟩
    hx.powerList ha
  rw [hc, h.coefficient]

include hsum in
theorem absorbAll_collects {xs : List Expr} (h : d.Collects q M) (hx : ∀ x ∈ xs, x.Stable)
    (ha : Addable (M + (xs.map powers).sum)) :
    Ensures (xs.foldlM (fun d x => d.absorb sum x .plus) d)
      (·.Collects (q * (xs.map Expr.scale).prod) (M + (xs.map powers).sum)) Stops := by
  induction xs generalizing d q M with
  | nil =>
    rw [List.map_nil, List.map_nil, List.prod_nil, List.sum_nil, mul_one, add_zero]
    exact .pure h
  | cons x xs ih =>
    rw [List.forall_mem_cons] at hx
    rw [List.map_cons, List.sum_cons, ← add_assoc] at ha
    rw [List.map_cons, List.map_cons, List.prod_cons, List.sum_cons, ← mul_assoc, ← add_assoc,
      List.foldlM_cons]
    exact (absorb_collects hsum h hx.1 (ha.mono (Multiset.le_add_right _ _))).bind fun d' hd =>
      ih hd hx.2 ha

include hsum in
/-- The factors of a product are collected, as far as their exponents can be added. -/
theorem absorbFactors_collects {xs : List Expr} (hx : ∀ x ∈ xs, x.Stable)
    (ha : Addable (xs.map powers).sum) : Ensures (ProductDraft.empty.absorbAll sum xs [])
      (·.Collects (xs.map Expr.scale).prod (xs.map powers).sum) Stops := by
  have habsorb := absorbAll_collects hsum .empty hx (by rwa [zero_add])
  rw [one_mul, zero_add] at habsorb
  exact habsorb.bind fun d hd => .pure hd

theorem flatten_unnested (h : d.nested = []) (rounds : Nat) :
    d.flatten sum (rounds + 1) = return d := by
  rw [flatten, h]

/-- No entry of the draft has the exponent one and a base that would be merged. -/
def Unmerged (d : ProductDraft) : Prop :=
  ∀ p ∈ d.exponents.entries, p.2.isOne = true →
    p.1.isProduct = false ∧ p.1.isSymbolicPower = false

theorem Unmerged.nested (h : d.Unmerged) : d.nested = [] := by
  refine List.eq_nil_iff_forall_not_mem.mpr fun b hb => ?_
  obtain ⟨e, he, hp, h1⟩ := mem_nested hb
  rw [(h _ he h1).1] at hp
  cases hp

end ProductDraft

namespace Expr

/-- The base of an entry with exponent one has no powers but itself. -/
theorem powers_of_unmerged {b : Expr} (hn : b.isNum = false) (hp : b.isProduct = false)
    (hs : b.isSymbolicPower = false) :
    b.powers = {(b.fingerprint, Expr.one.fingerprint)} ∧ b.scale = 1 := by
  cases b with
  | num n => cases hn
  | product age c factors => cases hp
  | power age b e =>
    rw [isSymbolicPower, Bool.not_eq_false'] at hs
    exact ⟨by rw [powers, if_pos hs], rfl⟩
  | _ => exact ⟨rfl, rfl⟩

/-- An entry makes a power that has no other entry. -/
theorem ofPower_powers {b e : Expr} (hn : b.isNum = false) (h0 : e.isZero = false)
    (hm : e.isOne = true → b.isProduct = false ∧ b.isSymbolicPower = false) :
    Ensures (ofPower b e)
      (fun r => r.powers = {(b.fingerprint, e.fingerprint)} ∧ r.scale = 1) NoFault := by
  rw [ofPower_symbolic hn, h0, if_neg Bool.false_ne_true]
  refine .ite (fun h1 => .pure ?_) fun _ => Ensures.fresh.bind fun age _ => .pure ⟨?_, rfl⟩
  · obtain ⟨hp, hs⟩ := hm h1
    rw [isOne_iff.mp h1]
    exact powers_of_unmerged hn hp hs
  · rw [powers, hn, if_neg Bool.false_ne_true]

/-- A base and an exponent that do not collapse make a symbolic power. -/
theorem ofPower_form {b e : Expr} (form : PowerForm b e) :
    Ensures (ofPower b e) (fun r => ∃ age, r = .power age b e) NoFault := by
  have hpower : Ensures (do return Expr.power (← Build.fresh) b e)
      (fun r => ∃ age, r = .power age b e) NoFault :=
    Ensures.fresh.bind fun age _ => .pure ⟨age, rfl⟩
  rcases b.num_or with ⟨m, rfl⟩ | hn
  · have h1 : m.isOne = false := form.base_ne_one
    rcases e.num_or with ⟨n, rfl⟩ | hne
    · rw [ofPower, Num.toPower, h1, form.not_integer m n rfl rfl]
      refine .ite (absurd · Bool.false_ne_true) fun _ => .ite (fun h0 => ?_) fun _ =>
        .ite (absurd · Bool.false_ne_true) fun _ => hpower
      cases form.zero_base h0
    · rw [ofPower_num m hne, h1]
      exact .ite (absurd · Bool.false_ne_true) fun _ => hpower
  · rw [ofPower_symbolic hn, form.exponent_ne_zero, form.exponent_ne_one]
    exact .ite (absurd · Bool.false_ne_true) fun _ => .ite (absurd · Bool.false_ne_true) fun _ =>
      hpower

theorem Entry.ofPower_powers {b e : Expr} (h : Entry b e) : Ensures (ofPower b e)
    (fun r => r.powers = {(b.fingerprint, e.fingerprint)} ∧ r.scale = 1) NoFault :=
  Expr.ofPower_powers h.base_not_num h.exponent_ne_zero h.unmerged

/-- An entry makes a stable power. -/
theorem Entry.ofPower_stable {b e : Expr} (h : Entry b e) (hb : b.Canonical) (he : e.Canonical) :
    Ensures (ofPower b e) (HasPowers 1 {(b.fingerprint, e.fingerprint)}) NoFault :=
  ((ofPower_canonical hb he).and h.ofPower_powers).mono
    (fun _ ⟨hc, hp, h1⟩ => ⟨⟨hc, .of_powers hc (hp ▸ h.singleton)⟩, h1, hp⟩) fun _ h => h.2

end Expr

namespace ProductDraft

variable {d : ProductDraft} {q : ℚ} {M : Multiset (ℕ × ℕ)}

theorem Collects.entries (h : d.Collects q M) (hm : d.Unmerged) :
    Entries (factorsFingerprint d.exponents.entries) := by
  intro b e hmem
  obtain ⟨p, hp, hb, he⟩ := exists_of_mem_factorsFingerprint hmem
  have hentry := h.entry p hp
  exact Entry.congr ⟨hentry.base.merged, hentry.exponent.merged, hentry.base_not_num,
    hentry.exponent_ne_zero, hm p hp⟩ hb he

/-- The finished product has the coefficient and the entries of the draft. -/
theorem collapse_collects (h : d.Collects q M) (hm : d.Unmerged) (hq : q ≠ 0) :
    Ensures d.collapse (HasPowers q (factorsFingerprint d.exponents.entries)) NoFault := by
  have hpowers : Ensures d.collapse (fun r => r.scale = q ∧
      r.powers = factorsFingerprint d.exponents.entries) NoFault := by
    rw [← h.coefficient] at hq ⊢
    refine .ite (fun h0 => absurd (Num.isZero_iff.mp h0) hq) fun _ => ?_
    split
    next hd => exact .pure ⟨rfl, by rw [hd]; rfl⟩
    next b e hd =>
      have hmem : (b, e) ∈ d.exponents.entries := by
        rw [hd]
        exact List.mem_cons_self
      rw [hd]
      refine .ite (fun h1 => ?_) fun _ => Ensures.fresh.bind fun age _ => .pure ⟨rfl, rfl⟩
      have hpower := ofPower_powers (h.entry _ hmem).base_not_num (h.entry _ hmem).exponent_ne_zero
        (hm _ hmem)
      exact hpower.imp fun r hr => ⟨hr.2.trans (Num.isOne_iff.mp h1).symm, hr.1⟩
    next =>
      refine Ensures.fresh.bind fun age _ => .pure ⟨rfl, ?_⟩
      rw [powers, factorsFingerprint_eq, factorsFingerprint_eq, Multiset.coe_eq_coe]
      exact (Ledger.sorted_perm _ _).map _
  refine ((collapse_canonical h.sound hm.nested).and hpowers).mono (fun r hr => ?_) fun _ h => h.2
  obtain ⟨hc, hs, hp⟩ := hr
  exact ⟨⟨hc, .of_powers hc (hp ▸ h.entries hm)⟩, hs, hp⟩

end ProductDraft

namespace Expr

theorem sum_powers (xs : List Expr) :
    (xs.map powers).sum = factorsFingerprint (xs.flatMap powerList) := by
  induction xs with
  | nil => rfl
  | cons x xs ih =>
    rw [List.map_cons, List.sum_cons, ih, powers_eq, List.flatMap_cons,
      ProductDraft.factorsFingerprint_append]

/-- Factors without a common base have the powers of a product together. -/
theorem properPowers_of_nodup {xs : List Expr} (hx : ∀ x ∈ xs, x.Stable)
    (h : ((xs.map powers).sum.map Prod.fst).Nodup) : ProperPowers (xs.map powers).sum := by
  refine ⟨h, fun p hp => ?_⟩
  rw [sum_powers, factorsFingerprint_eq, Multiset.mem_coe] at hp
  obtain ⟨r, hr, rfl⟩ := List.mem_map.mp hp
  obtain ⟨x, hmem, hr⟩ := List.mem_flatMap.mp hr
  have hentry := (hx x hmem).powerList r hr
  exact ⟨r.2, hentry.exponent.canonical, hentry.exponent_ne_zero, rfl⟩

/-- A product of stable factors without a common base has the powers of all factors. -/
theorem productWith_powers {sum : SignedTerms → Build Expr} (hsum : AddsUp sum) {xs : List Expr}
    (hx : ∀ x ∈ xs, x.Stable) (hq : (xs.map scale).prod ≠ 0)
    (hM : ((xs.map powers).sum.map Prod.fst).Nodup) : Ensures (productWith sum xs [])
      (HasPowers (xs.map scale).prod (xs.map powers).sum) Stops := by
  have hproper := properPowers_of_nodup hx hM
  refine (ProductDraft.absorbFactors_collects hsum hx hproper.addable).bind fun d hd => ?_
  have hpowers : factorsFingerprint d.exponents.entries = (xs.map powers).sum :=
    degreesOf_injective hd.properPowers hproper hd.degrees
  have hunmerged : d.Unmerged := fun p hp =>
    (Entries.sum (fun x h => (hx x h).entries) p.1 p.2
      (hpowers ▸ mem_factorsFingerprint hp)).unmerged
  rw [ProductDraft.finish, ProductDraft.rounds, ProductDraft.flatten_unnested hunmerged.nested,
    pure_bind, ← hpowers]
  exact (ProductDraft.collapse_collects hd hunmerged hq).mono (fun _ => id) fun _ => False.elim

end Expr

/-! ## Sums -/

namespace SumDraft

/-- The draft has this content, and its terms are merged. -/
structure Collects (d : SumDraft) (c : Content) : Prop where
  merged : ∀ p ∈ d.coefficients.entries, p.1.Merged
  content : (d.constant.value, d.coefficients.total powers Num.value) = c

variable {d : SumDraft} {c : Content} {F : Fault → Prop}

theorem Collects.empty : SumDraft.empty.Collects 0 where
  merged := List.forall_mem_nil _
  content := by
    rw [Ledger.total]
    exact congrArg (Prod.mk 0) collect_zero

/-- A coefficient is added to that of its term. -/
theorem enter_collects (h : d.Collects c) {t : Expr} (ht : t.Merged) (n : Num) :
    Ensures (d.enter t n) (·.Collects (c + (0, Finsupp.single t.powers n.value))) F := by
  rw [enter_eq]
  refine (Num.add_ensures _ _).bind fun x hx => .pure ⟨fun p hp => ?_, ?_⟩
  · rcases Ledger.mem_store hp with hp | ⟨hkey, -⟩
    · exact h.merged p hp
    · exact ht.congr (BEq.symm hkey)
  · rw [← h.content, Prod.mk_add_mk, add_zero]
    exact congrArg (Prod.mk _) (Ledger.total_combine _ _ _ (fun _ hk => powers_congr hk)
      Num.isZero_iff.mp rfl hx)

theorem shift_collects (h : d.Collects c) (n s : Num) :
    Ensures (d.shift n s) (·.Collects (c + (s.value * n.value, 0))) F := by
  refine (Num.multiply_ensures n s).bind fun m hm =>
    (Num.add_ensures d.constant m).bind fun k hk => .pure ⟨h.merged, ?_⟩
  rw [← h.content, Prod.mk_add_mk, add_zero, hk, hm, mul_comm]

theorem enterAll_collects (h : d.Collects c) {summands : List (Expr × Num)} (s : Num)
    (ht : ∀ p ∈ summands, p.1.Merged) :
    Ensures (summands.foldlM (fun d (t, n) => do d.enter t (← n.multiply s)) d) (·.Collects
      (c + (0, s.value • collect (summands.map fun p => (p.1.powers, p.2.value) : List _)))) F := by
  induction summands generalizing d c with
  | nil =>
    rw [List.map_nil, Multiset.coe_nil, collect_zero, smul_zero, ← Prod.zero_eq_mk, add_zero]
    exact .pure h
  | cons p summands ih =>
    obtain ⟨t, n⟩ := p
    rw [List.forall_mem_cons] at ht
    rw [List.map_cons, ← Multiset.cons_coe, collect_cons, smul_add, Finsupp.smul_single,
      smul_eq_mul, ← zero_add (0 : ℚ), ← Prod.mk_add_mk, ← add_assoc, List.foldlM_cons]
    refine Ensures.bind ((Num.multiply_ensures n s).bind fun m hm => ?_)
      fun d' hd => ih hd ht.2
    have henter := enter_collects (F := F) h ht.1 m
    rwa [hm, mul_comm] at henter

/-- The coefficient of a merged product and what is left have the parts of the product. -/
theorem separate_powers {age : Nat} {c : Num} {factors : List (Expr × Expr)}
    (hf : ∀ p ∈ factors, Entry p.1 p.2) : Ensures (separate age c factors)
      (fun p => p.1.value = c.value ∧ p.2.powers = factorsFingerprint factors) NoFault := by
  unfold separate
  split
  · exact (hf _ List.mem_cons_self).ofPower_powers.bind fun r hr => .pure ⟨rfl, hr.1⟩
  · exact .ite (fun h1 => .pure ⟨(Num.isOne_iff.mp h1).symm, rfl⟩) fun _ =>
      Ensures.fresh.bind fun _ _ => .pure ⟨rfl, rfl⟩

/-- A term adds its content. -/
theorem absorb_collects (h : d.Collects c) {t : Expr} (ht : t.Stable) (s : Num) :
    Ensures (d.absorb t s) (·.Collects (c + s.value • t.content)) NoFault := by
  have hself : t.isNum = false → t.isSum = false → t.scale = 1 →
      Ensures (d.enter t s) (·.Collects (c + s.value • t.content)) NoFault := by
    intro hn hs h1
    rw [content_of_term hn hs, h1, Prod.smul_mk, smul_zero, Finsupp.smul_single, smul_eq_mul,
      mul_one]
    exact enter_collects h ht.merged s
  have hentries := ht.entries
  obtain ⟨hc, hm⟩ := ht
  cases hc with
  | num n _ =>
    rw [content_num, Prod.smul_mk, smul_zero]
    exact shift_collects h n s
  | var name => exact hself rfl rfl rfl
  | power age hb he form => exact hself rfl rfl rfl
  | @product age n factors hn hb he form =>
    have hseparate : Ensures (separate age n factors) (fun p => p.2.Term ∧
        p.1.value = n.value ∧ p.2.powers = factorsFingerprint factors) NoFault :=
      ((separate_term hb he form).and (separate_powers fun p hp =>
        hentries _ _ (mem_factorsFingerprint hp))).mono (fun _ => id) fun _ h => h.2
    refine hseparate.bind fun p hp => ?_
    obtain ⟨hterm, hvalue, hpowers⟩ := hp
    have hmerged : p.2.Merged := .of_powers hterm.1 (hpowers ▸ hentries)
    refine (Num.multiply_ensures p.1 s).bind fun m hm => ?_
    rw [content_of_term rfl rfl, Prod.smul_mk, smul_zero, Finsupp.smul_single, smul_eq_mul]
    have henter := enter_collects (F := NoFault) h hmerged m
    rwa [hm, hvalue, hpowers, mul_comm] at henter
  | @sum age n summands hn hct hr form =>
    cases hm with
    | sum _ hmt =>
      refine (shift_collects h n s).bind fun d' hd => ?_
      have hcontent : s.value • (Expr.sum age n summands).content = (s.value * n.value, 0) +
          (0, s.value • collect (summands.map fun p => (p.1.powers, p.2.value) : List _)) := by
        rw [content_sum, Prod.smul_mk, smul_eq_mul, Prod.mk_add_mk, add_zero, zero_add]
      rw [hcontent, ← add_assoc]
      exact enterAll_collects hd s hmt

theorem absorbAll_collects (h : d.Collects c) {terms : SignedTerms}
    (ht : ∀ p ∈ terms, p.1.Stable) :
    Ensures (d.absorbAll terms) (·.Collects (c + totalContent terms)) NoFault := by
  induction terms generalizing d c with
  | nil =>
    rw [totalContent, List.map_nil, List.sum_nil, add_zero]
    exact .pure h
  | cons p terms ih =>
    rw [List.forall_mem_cons] at ht
    rw [totalContent_cons, ← add_assoc, absorbAll, List.foldlM_cons]
    exact (absorb_collects h ht.1 _).bind fun d' hd => ih hd ht.2

/-- The terms of the draft have distinct powers. -/
theorem Sound.nodup_powers (h : d.Sound) :
    ((Multiset.ofList (d.coefficients.entries.map fun p => (p.1.powers, p.2.value))).map
      Prod.fst).Nodup := by
  rw [Multiset.map_coe, Multiset.coe_nodup, List.map_map, List.Nodup, List.pairwise_map]
  refine h.1.imp_of_mem fun {p r} hp hr hpr hf => ?_
  obtain ⟨hcp, hnp, h1p⟩ := (h.2 p hp).1
  obtain ⟨hcr, hnr, h1r⟩ := (h.2 r hr).1
  have hscale := (scale_of_coefficient hnp h1p).trans (scale_of_coefficient hnr h1r).symm
  rw [hcp.eq_of_powers hcr hscale hf] at hpr
  cases hpr

/-- The coefficient of an entry is that of its term in the content. -/
theorem Collects.coefficient (h : d.Collects c) (hd : d.Sound) {p : Expr × Num}
    (hp : p ∈ d.coefficients.entries) : c.2 p.1.powers = p.2.value := by
  rw [← h.content]
  exact collect_apply_of_mem (Sound.nodup_powers hd)
    (Multiset.mem_coe.mpr (List.mem_map_of_mem (f := fun p => (p.1.powers, p.2.value)) hp))

/-- No sum has the coefficient one, so nothing is nested. -/
theorem Collects.nested (h : d.Collects c) (hd : d.Sound) (hq : Quiet c.2) : d.nested = [] := by
  refine List.eq_nil_iff_forall_not_mem.mpr fun t ht => ?_
  obtain ⟨n, hn, hs, h1⟩ := mem_nested ht
  exact hq t (hd.2 _ hn).1.1 hs ((h.coefficient hd hn).trans (Num.isOne_iff.mp h1))

theorem flatten_unnested (h : d.nested = []) (rounds : Nat) :
    d.flatten (rounds + 1) = return d := by
  rw [flatten, h]

/-- The finished sum has the content of the draft. -/
theorem collapse_collects {product : List Expr → Build Expr} (h : d.Collects c) (hd : d.Sound)
    (hn : d.nested = []) (hproduct : ∀ t n, (t, n) ∈ d.coefficients.entries →
      Ensures (product [t, .num n])
        (HasContent (0, Finsupp.single t.powers n.value)) Stops) :
    Ensures (d.collapse product) (HasContent c) Stops := by
  have hcanonical : ∀ {summands : List (Expr × Num)} (age : Nat),
      summands.Perm d.coefficients.entries →
      (summands.Pairwise fun p q => (p.1 == q.1) = false) →
      2 ≤ summands.length + (if d.constant.isZero then 0 else 1) →
      (Expr.sum age d.constant summands).Stable := fun age hperm hdistinct hl =>
    ⟨hd.sum hn hperm hdistinct hl age, .sum age fun p hp => h.merged p (hperm.mem_iff.mp hp)⟩
  rw [← h.content]
  unfold collapse
  split
  next he =>
    refine .pure ⟨.num _, ?_⟩
    rw [content_num, Ledger.total, he, List.map_nil, Multiset.coe_nil, collect_zero]
  next t n he =>
    have htotal : d.coefficients.total powers Num.value = Finsupp.single t.powers n.value := by
      rw [Ledger.total, he, List.map_singleton, Multiset.coe_singleton, collect_singleton]
    refine .ite (fun h0 => ?_) fun h0 => Ensures.fresh.bind fun age _ => .pure ⟨?_, ?_⟩
    · rw [htotal, Num.isZero_iff.mp h0]
      exact hproduct t n (by rw [he]; exact List.mem_cons_self)
    · refine hcanonical age (by rw [he]) (List.pairwise_singleton _ _) ?_
      rw [if_neg h0]
      exact Nat.le_refl 2
    · rw [content_sum, htotal, List.map_singleton, Multiset.coe_singleton, collect_singleton]
  next h0 h1 =>
    have hperm := Ledger.sorted_perm compareTerms d.coefficients
    refine Ensures.fresh.bind fun age _ => .pure ⟨?_, ?_⟩
    · refine hcanonical age hperm (hd.1.sorted _) ?_
      rw [hperm.length_eq]
      rcases e : d.coefficients.entries with - | ⟨p, - | ⟨q, l⟩⟩
      · exact absurd e h0
      · exact absurd e (h1 _ _)
      · simp only [List.length_cons]
        omega
    · rw [content_sum, Ledger.total, Multiset.coe_eq_coe.mpr (hperm.map _)]

end SumDraft

/-! ## All levels -/

namespace Expr

theorem Term.scale_eq_one {t : Expr} (h : t.Term) : t.scale = 1 := scale_of_coefficient h.2.1 h.2.2

theorem isNum_of_powers {e : Expr} (h : e.powers ≠ 0) : e.isNum = false := by
  cases e with
  | num n => exact absurd rfl h
  | _ => rfl

/-- A multiple of a term has the content that it should have, unless it is the sum itself. -/
theorem content_of_powers {t r : Expr} {q : ℚ} (ht : t.Term) (hr : r.Canonical)
    (h1 : t.isSum = true → q ≠ 1) (hs : r.scale = q) (hp : r.powers = t.powers) :
    r.content = (0, Finsupp.single t.powers q) := by
  have hn := isNum_of_powers (hp ▸ ht.1.powers_ne_zero ht.2.1)
  cases hsum : r.isSum with
  | true =>
    have hone := scale_of_isSum hsum
    exact absurd (hs.symm.trans hone)
      (h1 (hr.isSum_of_powers ht.1 hsum ht.scale_eq_one hp.symm))
  | false => rw [content_of_term hn hsum, hp, hs]

/-- A multiple of a stable term that is not merged. -/
theorem productWith_multiple {sum : SignedTerms → Build Expr} (hsum : AddsUp sum) {t : Expr}
    {n : Num} (ht : t.Term) (hm : t.Merged) (hn : n.value ≠ 0)
    (h1 : t.isSum = true → n.value ≠ 1) : Ensures (productWith sum [t, .num n] [])
      (HasContent (0, Finsupp.single t.powers n.value)) Stops := by
  have hscale : ([t, .num n].map scale).prod = n.value := by
    rw [List.map_cons, List.prod_cons, ht.scale_eq_one, one_mul, List.map_singleton,
      List.prod_singleton]
    rfl
  have hpowers : ([t, .num n].map powers).sum = t.powers := by
    rw [List.map_cons, List.sum_cons, List.map_singleton, List.sum_singleton]
    exact add_zero _
  have hstable : ∀ x ∈ [t, .num n], x.Stable := by simpa using ⟨⟨ht.1, hm⟩, .num n⟩
  have hproduct := productWith_powers hsum hstable (hscale ▸ hn) (hpowers ▸ ht.1.powers_nodup)
  rw [hscale, hpowers] at hproduct
  exact hproduct.imp fun r hr => ⟨hr.1, content_of_powers ht hr.1.canonical h1 hr.scale hr.powers⟩

/-- A draft whose multiples of terms are worked out is finished to a sum of its content. -/
theorem collapse_multiples {sum : SignedTerms → Build Expr} (hsum : AddsUp sum) {d : SumDraft}
    {c : Content} (h : d.Collects c) (hd : d.Sound) (hn : d.nested = []) :
    Ensures (d.collapse fun factors => productWith sum factors [])
      (HasContent c) Stops := by
  refine SumDraft.collapse_collects h hd hn fun t n hmem => ?_
  obtain ⟨ht, hzero⟩ := hd.2 _ hmem
  refine productWith_multiple hsum ht (h.merged _ hmem)
    (fun h0 => ne_true_of_eq_false hzero (Num.isZero_iff.mpr h0)) fun hs h1 => ?_
  have hone := SumDraft.not_nested hn hmem hs
  rw [show n.isOne = true from Num.isOne_iff.mpr h1] at hone
  cases hone

/-- **A sum of stable terms has the contents of the terms**, unless sums are merged. -/
theorem sumAt_addsUp (level : Nat) : AddsUp (sumAt level) := by
  induction level with
  | zero => exact fun _ _ _ => .throw rfl
  | succ level ih =>
    intro terms ht hq
    have hcollects := SumDraft.absorbAll_collects .empty ht
    have hsound := SumDraft.absorbAll_sound .empty fun p hp => (ht p hp).canonical
    rw [zero_add] at hcollects
    refine ((hcollects.and hsound).mono (fun _ => id) fun _ h => h.1.elim).bind fun d hd => ?_
    have hnested := hd.1.nested hd.2 hq
    rw [SumDraft.finish, SumDraft.rounds, SumDraft.flatten_unnested hnested, pure_bind]
    exact collapse_multiples ih hd.1 hd.2 hnested

/-- **Products of stable factors without a common base have the powers of the factors.** -/
theorem ofProduct_powers {q : ℚ} {M : Multiset (ℕ × ℕ)} {xs : List Expr} (h : Multiplies q M xs [])
    (hq : q ≠ 0) (hM : (M.map Prod.fst).Nodup) :
    Ensures (ofProduct xs []) (HasPowers q M) NoFault := by
  obtain ⟨hx, -, rfl, rfl⟩ := h
  exact (productWith_powers (sumAt_addsUp _) hx hq hM).noFault (ofProduct_finishes _ _)

/-- **Sums of stable terms have the contents of the terms**, unless sums are merged. -/
theorem ofSum_content {c : Content} {terms : SignedTerms} (h : Adds c terms) (hq : Quiet c.2) :
    Ensures (ofSum terms) (HasContent c) NoFault := by
  obtain ⟨ht, rfl⟩ := h
  exact (sumAt_addsUp _ terms ht hq).noFault (ofSum_finishes _)

/-- A sum of terms is the expression that has their content. -/
theorem ofSum_copies {e : Expr} (hc : e.Canonical) {terms : SignedTerms}
    (h : Adds e.content terms) : Ensures (ofSum terms) (Copies e) NoFault :=
  (ofSum_content h hc.quiet).imp fun _ hr =>
    ⟨hr.stable.canonical, hr.stable.canonical.eq_of_content hc hr.content⟩

/-- A multiple of a stable term that is not merged, as it is built outside of sums. -/
theorem ofProduct_multiple {t : Expr} {n : Num} (ht : t.Term) (hm : t.Merged) (hn : n.value ≠ 0)
    (h1 : t.isSum = true → n.value ≠ 1) : Ensures (ofProduct [t, .num n] [])
      (HasContent (0, Finsupp.single t.powers n.value)) NoFault :=
  (productWith_multiple (sumAt_addsUp _) ht hm hn h1).noFault (ofProduct_finishes _ _)

end Expr

end ExactAlgebra
