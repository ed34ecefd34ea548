import ExactAlgebra.Proofs.Canonical.Parts
import ExactAlgebra.Proofs.Ledger.Total
import Mathlib.Algebra.Module.Prod
import Mathlib.Algebra.Module.Rat
import Mathlib.Data.Finsupp.SMul

/-!
# What expressions add up to

As a term of a sum, an expression counts with its constant and with a coefficient for every product
of powers; as a factor of a product, with its rational factor and with an exponent for every base,
which in turn counts as a term.  These are functions with finitely many values, so they can be added
where the expressions have terms or bases in common, and they determine a canonical expression.

* `tally`, `content`: the coefficients of an expression as a sum.  `degreesOf`: the exponents of
  some powers in a product.
* `Canonical.eq_of_content`, `degreesOf_injective`: they determine the expression and the powers.
* `Quiet`: no sum has the coefficient one, so that nothing is merged.  `Plain`: no sum has any
  coefficient.  `Addable`: exponents can be added one by one, and nothing is merged.
-/

namespace ExactAlgebra.Expr

/-! ## Contents -/

/-- The coefficients of the terms, by the powers of the terms. -/
noncomputable def tally (e : Expr) : Multiset (ℕ × ℕ) →₀ ℚ := collect e.addends

/-- A constant with the coefficients of some terms. -/
abbrev Content := ℚ × (Multiset (ℕ × ℕ) →₀ ℚ)

/-- What an expression adds to a sum. -/
noncomputable def content (e : Expr) : Content := (e.constant, e.tally)

theorem tally_congr {a b : Expr} (h : a.beq b = true) : a.tally = b.tally := by
  rw [tally, tally, addends_congr h]

theorem content_congr {a b : Expr} (h : a.beq b = true) : a.content = b.content := by
  rw [content, content, constant_congr h, tally_congr h]

@[simp] theorem content_num (n : Num) : (num n).content = (n.value, 0) := by
  rw [content, tally, addends, collect_zero, constant]

theorem content_zero : zero.content = 0 := content_num _

theorem content_one : one.content = (1, 0) := content_num _

theorem content_of_isZero {e : Expr} (h : e.isZero = true) : e.content = 0 := by
  rcases e.num_or with ⟨n, rfl⟩ | hn
  · rw [content_num, Num.isZero_iff.mp h]
    rfl
  · rw [isZero_of_not_num hn] at h
    cases h

theorem content_of_isOne {e : Expr} (h : e.isOne = true) : e.content = (1, 0) := by
  rcases e.num_or with ⟨n, rfl⟩ | hn
  · rw [content_num, Num.isOne_iff.mp h]
  · rw [isOne_of_not_num hn] at h
    cases h

theorem content_of_term {e : Expr} (hn : e.isNum = false) (hs : e.isSum = false) :
    e.content = (0, Finsupp.single e.powers e.scale) := by
  rw [content, tally, constant_of_term hn hs, addends_of_term hn hs, collect_singleton]

theorem content_sum (age : Nat) (c : Num) (summands : List (Expr × Num)) :
    (sum age c summands).content =
      (c.value, collect (summands.map fun p => (p.1.powers, p.2.value) : List _)) := rfl

theorem Canonical.coefficient_ne_zero {e : Expr} (h : e.Canonical) : ∀ a ∈ e.addends, a.2 ≠ 0 := by
  cases h with
  | num n _ => exact fun a ha => absurd ha (Multiset.notMem_zero a)
  | @product age c factors hc hb he form =>
    intro a ha h0
    rw [addends_product, Multiset.mem_singleton] at ha
    have hzero := form.coefficient_ne_zero
    rw [show c.isZero = true from Num.isZero_iff.mpr (by rw [ha] at h0; exact h0)] at hzero
    cases hzero
  | @sum age c summands hc ht hr form =>
    intro a ha h0
    obtain ⟨p, hp, rfl⟩ := List.mem_map.mp (Multiset.mem_coe.mp ha)
    have hzero := form.coefficient_ne_zero p hp
    rw [show p.2.isZero = true from Num.isZero_iff.mpr h0] at hzero
    cases hzero
  | _ => exact fun a ha => by rw [Multiset.mem_singleton.mp ha]; exact one_ne_zero

/-- **The content determines a canonical expression.** -/
theorem Canonical.eq_of_content {a b : Expr} (ha : a.Canonical) (hb : b.Canonical)
    (h : a.content = b.content) : (a == b) = true :=
  ha.eq_of_addends hb (congrArg Prod.fst h)
    (collect_injective ha.addends_nodup hb.addends_nodup ha.coefficient_ne_zero
      hb.coefficient_ne_zero (congrArg Prod.snd h))

theorem Canonical.content_ne_zero {e : Expr} (h : e.Canonical) (h0 : e.isZero = false) :
    e.content ≠ 0 := by
  intro hzero
  have hbeq : e.beq Expr.zero = true := h.eq_of_content .zero (hzero.trans content_zero.symm)
  rw [isZero_congr hbeq] at h0
  cases h0

/-! ## Sums among the terms -/

/-- No sum has the coefficient one. -/
def Quiet (τ : Multiset (ℕ × ℕ) →₀ ℚ) : Prop :=
  ∀ t : Expr, t.Canonical → t.isSum = true → τ t.powers ≠ 1

/-- No sum has a coefficient. -/
def Plain (τ : Multiset (ℕ × ℕ) →₀ ℚ) : Prop :=
  ∀ t : Expr, t.Canonical → t.isSum = true → τ t.powers = 0

theorem Plain.quiet {τ : Multiset (ℕ × ℕ) →₀ ℚ} (h : Plain τ) : Quiet τ := fun t ht hs => by
  rw [h t ht hs]
  exact zero_ne_one

theorem Plain.zero : Plain 0 := fun _ _ _ => rfl

theorem Plain.add {σ τ : Multiset (ℕ × ℕ) →₀ ℚ} (h : Plain σ) (h' : Plain τ) : Plain (σ + τ) :=
  fun t ht hs => by rw [Finsupp.add_apply, h t ht hs, h' t ht hs, add_zero]

theorem scale_of_isSum {e : Expr} (h : e.isSum = true) : e.scale = 1 := by
  cases e with
  | sum age c summands => rfl
  | _ => cases h

theorem Canonical.scale_ne_zero {e : Expr} (h : e.Canonical) (hn : e.isNum = false) :
    e.scale ≠ 0 := by
  cases h with
  | num n _ => cases hn
  | product age _ _ _ form =>
    exact fun h0 => ne_true_of_eq_false form.coefficient_ne_zero (Num.isZero_iff.mpr h0)
  | _ => exact one_ne_zero

/-- What has the powers of a sum and no rational factor is the sum. -/
theorem Canonical.isSum_of_powers {t e : Expr} (ht : t.Canonical) (he : e.Canonical)
    (hs : t.isSum = true) (h1 : e.scale = 1) (hp : e.powers = t.powers) : e.isSum = true :=
  (isSum_congr (he.eq_of_powers ht (h1.trans (scale_of_isSum hs).symm) hp)).trans hs

/-- A single term that is no sum has no sums among its terms. -/
theorem Canonical.plain {e : Expr} (h : e.Canonical) (hn : e.isNum = false) (hs : e.isSum = false)
    (h1 : e.scale = 1) : Plain e.content.2 := by
  intro t ht hsum
  rw [content_of_term hn hs]
  refine Finsupp.single_eq_of_ne fun hpowers => ?_
  rw [ht.isSum_of_powers h hsum h1 hpowers.symm] at hs
  cases hs

/-- Nothing is left to be merged in a canonical expression. -/
theorem Canonical.quiet {e : Expr} (h : e.Canonical) : Quiet e.tally := by
  intro t ht hs h1
  have hmem : (t.powers, (1 : ℚ)) ∈ e.addends := by
    rw [← graph_collect h.addends_nodup h.coefficient_ne_zero, Finset.mem_val,
      Finsupp.mem_graph_iff]
    exact ⟨h1, one_ne_zero⟩
  have hself : e.addends = {(e.powers, e.scale)} → e.isSum = true := by
    intro ha
    rw [ha, Multiset.mem_singleton, Prod.mk.injEq] at hmem
    exact ht.isSum_of_powers h hs hmem.2.symm hmem.1.symm
  cases h with
  | num n _ => exact absurd hmem (Multiset.notMem_zero _)
  | @sum age c summands _ hct _ form =>
    obtain ⟨p, hp, hpt⟩ := List.mem_map.mp (Multiset.mem_coe.mp hmem)
    rw [Prod.mk.injEq] at hpt
    have hone := form.nested p hp
      (ht.isSum_of_powers (hct p hp) hs (form.scale_eq_one p hp) hpt.1)
    rw [show p.2.isOne = true from Num.isOne_iff.mpr hpt.2] at hone
    cases hone
  | _ => cases hself rfl

/-! ## Degrees -/

open Classical in
noncomputable def contentOf (n : ℕ) : Content :=
  if h : ∃ e : Expr, e.fingerprint = n then h.choose.content else 0

theorem contentOf_fingerprint (e : Expr) : contentOf e.fingerprint = e.content := by
  have h : ∃ e' : Expr, e'.fingerprint = e.fingerprint := ⟨e, rfl⟩
  rw [contentOf, dif_pos h]
  exact content_congr ((beq_iff _ _).mpr h.choose_spec)

noncomputable def degreesOf (M : Multiset (ℕ × ℕ)) : ℕ →₀ Content :=
  collect (M.map fun p => (p.1, contentOf p.2))

theorem degreesOf_zero : degreesOf 0 = 0 := by
  rw [degreesOf, Multiset.map_zero, collect_zero]

theorem degreesOf_add (M N : Multiset (ℕ × ℕ)) : degreesOf (M + N) = degreesOf M + degreesOf N := by
  rw [degreesOf, Multiset.map_add, collect_add, degreesOf, degreesOf]

theorem degreesOf_singleton (b e : Expr) :
    degreesOf {(b.fingerprint, e.fingerprint)} = Finsupp.single b.fingerprint e.content := by
  rw [degreesOf, Multiset.map_singleton, collect_singleton, contentOf_fingerprint]

theorem degreesOf_apply_of_mem {M : Multiset (ℕ × ℕ)} (hM : (M.map Prod.fst).Nodup) {p : ℕ × ℕ}
    (hp : p ∈ M) : degreesOf M p.1 = contentOf p.2 := by
  have hkeys : ((M.map fun p => (p.1, contentOf p.2)).map Prod.fst).Nodup := by
    rwa [Multiset.map_map]
  exact collect_apply_of_mem hkeys (Multiset.mem_map_of_mem (fun p => (p.1, contentOf p.2)) hp)

theorem degreesOf_apply_of_notMem {M : Multiset (ℕ × ℕ)} {n : ℕ} (hn : n ∉ M.map Prod.fst) :
    degreesOf M n = 0 :=
  collect_apply_of_notMem (by rwa [Multiset.map_map])

/-- What is asked of the powers of a product: no base comes twice, and all exponents are canonical
and not zero. -/
structure ProperPowers (M : Multiset (ℕ × ℕ)) : Prop where
  nodup : (M.map Prod.fst).Nodup
  exponent : ∀ p ∈ M, ∃ e : Expr, e.Canonical ∧ e.isZero = false ∧ e.fingerprint = p.2

theorem ProperPowers.nodup_degrees {M : Multiset (ℕ × ℕ)} (h : ProperPowers M) :
    ((M.map fun p => (p.1, contentOf p.2)).map Prod.fst).Nodup := by
  rw [Multiset.map_map]
  exact h.nodup

theorem ProperPowers.degree_ne_zero {M : Multiset (ℕ × ℕ)} (h : ProperPowers M) :
    ∀ q ∈ M.map fun p => (p.1, contentOf p.2), q.2 ≠ 0 := by
  intro q hq
  obtain ⟨p, hp, rfl⟩ := Multiset.mem_map.mp hq
  obtain ⟨e, he, h0, hep⟩ := h.exponent p hp
  rw [← hep, contentOf_fingerprint]
  exact he.content_ne_zero h0

theorem ProperPowers.degreesOf_apply {M : Multiset (ℕ × ℕ)} (h : ProperPowers M) {b e : Expr}
    (hp : (b.fingerprint, e.fingerprint) ∈ M) : degreesOf M b.fingerprint = e.content :=
  (degreesOf_apply_of_mem h.nodup hp).trans (contentOf_fingerprint e)

theorem ProperPowers.mem_of_degreesOf {M N : Multiset (ℕ × ℕ)} (hM : ProperPowers M)
    (hN : ProperPowers N) (h : degreesOf M = degreesOf N) : ∀ p ∈ M, p ∈ N := by
  intro p hp
  have hmap := collect_injective hM.nodup_degrees hN.nodup_degrees hM.degree_ne_zero
    hN.degree_ne_zero h
  have hmem := Multiset.mem_map_of_mem (fun p => (p.1, contentOf p.2)) hp
  rw [hmap] at hmem
  obtain ⟨q, hq, hqp⟩ := Multiset.mem_map.mp hmem
  obtain ⟨e, he, -, hep⟩ := hM.exponent p hp
  obtain ⟨x, hx, -, hxq⟩ := hN.exponent q hq
  rw [Prod.mk.injEq, ← hep, ← hxq, contentOf_fingerprint, contentOf_fingerprint] at hqp
  have hexponent : q.2 = p.2 := by
    rw [← hep, ← hxq]
    exact eq_iff.mp (hx.eq_of_content he hqp.2)
  rwa [← Prod.ext hqp.1 hexponent]

/-- **The degrees determine the powers.** -/
theorem degreesOf_injective {M N : Multiset (ℕ × ℕ)} (hM : ProperPowers M) (hN : ProperPowers N)
    (h : degreesOf M = degreesOf N) : M = N :=
  (Multiset.Nodup.ext (.of_map _ hM.nodup) (.of_map _ hN.nodup)).mpr fun p =>
    ⟨hM.mem_of_degreesOf hN h p, hN.mem_of_degreesOf hM h.symm p⟩

theorem ProperPowers.mono {M N : Multiset (ℕ × ℕ)} (h : ProperPowers M) (hN : N ≤ M) :
    ProperPowers N where
  nodup := Multiset.nodup_of_le (Multiset.map_le_map hN) h.nodup
  exponent p hp := h.exponent p (Multiset.mem_of_le hN hp)

/-- No exponent of a product has a sum left to be merged. -/
theorem ProperPowers.quiet {M : Multiset (ℕ × ℕ)} (h : ProperPowers M) (n : ℕ) :
    Quiet (degreesOf M n).2 := by
  by_cases hn : n ∈ M.map Prod.fst
  · obtain ⟨p, hp, rfl⟩ := Multiset.mem_map.mp hn
    obtain ⟨e, he, -, hep⟩ := h.exponent p hp
    rw [degreesOf_apply_of_mem h.nodup hp, ← hep, contentOf_fingerprint]
    exact he.quiet
  · rw [degreesOf_apply_of_notMem hn]
    exact Plain.zero.quiet

/-- Whichever of the powers are taken, nothing is left to be merged in the exponents that they add
up to. -/
def Addable (M : Multiset (ℕ × ℕ)) : Prop := ∀ N ≤ M, ∀ n, Quiet (degreesOf N n).2

theorem Addable.mono {M N : Multiset (ℕ × ℕ)} (h : Addable M) (hN : N ≤ M) : Addable N :=
  fun L hL => h L (hL.trans hN)

/-- Exponents without sums can be added. -/
theorem Addable.of_plain {M : Multiset (ℕ × ℕ)} (h : ∀ p ∈ M, Plain (contentOf p.2).2) :
    Addable M := by
  have hplain : ∀ N ≤ M, ∀ n, Plain (degreesOf N n).2 := by
    intro N
    induction N using Multiset.induction_on with
    | empty => exact fun _ n => by rw [degreesOf_zero]; exact Plain.zero
    | cons p N ih =>
      intro hN n
      rw [degreesOf, Multiset.map_cons, collect_cons]
      refine Plain.add ?_ (ih ((Multiset.le_cons_self N p).trans hN) n)
      rw [Finsupp.single_apply]
      split
      · exact h p (Multiset.mem_of_le hN (Multiset.mem_cons_self p N))
      · exact Plain.zero
  exact fun N hN n => (hplain N hN n).quiet

theorem ProperPowers.addable {M : Multiset (ℕ × ℕ)} (h : ProperPowers M) : Addable M :=
  fun _ hN => (h.mono hN).quiet

/-- The powers of a canonical expression are those of a product. -/
theorem Canonical.properPowers {e : Expr} (h : e.Canonical) : ProperPowers e.powers := by
  refine ⟨h.powers_nodup, ?_⟩
  have hself : ∀ n : ℕ, ∀ p ∈ ({(n, Expr.one.fingerprint)} : Multiset (ℕ × ℕ)),
      ∃ x : Expr, x.Canonical ∧ x.isZero = false ∧ x.fingerprint = p.2 := fun n p hp =>
    ⟨.one, .one, rfl, by rw [Multiset.mem_singleton.mp hp]⟩
  cases h with
  | num n _ => exact fun p hp => absurd hp (Multiset.notMem_zero p)
  | power age hb he form =>
    rw [powers]
    split
    · exact hself _
    · exact fun p hp => ⟨_, he, form.exponent_ne_zero, by rw [Multiset.mem_singleton.mp hp]⟩
  | @product age c factors _ hb he form =>
    intro p hp
    rw [powers, factorsFingerprint_eq, Multiset.mem_coe] at hp
    obtain ⟨q, hq, rfl⟩ := List.mem_map.mp hp
    exact ⟨q.2, he q hq, form.exponent_ne_zero q hq, rfl⟩
  | _ => exact hself _

end ExactAlgebra.Expr
