import ExactAlgebra.Proofs.Canonical
import Mathlib.Data.Multiset.AddSub
import Mathlib.Algebra.BigOperators.Group.Multiset.Basic

/-!
# The parts of a canonical expression

A canonical expression can be looked at as a product, its rational factor times powers, and as a
sum, its constant plus multiples of products of powers.  Either way it is determined by its parts.
The parts are told by fingerprints, so that equal expressions have the same parts.

* `scale`, `powers`: the parts of an expression as a product.
* `constant`, `addends`: the parts of an expression as a sum.
* `Canonical.eq_of_powers`, `Canonical.eq_of_addends`: the parts determine a canonical expression.
* `Canonical.powers_nodup`, `Canonical.addends_nodup`: no part comes twice.
-/

namespace ExactAlgebra.Expr

open Encodable (encode)

/-! ## Equal expressions are alike -/

section Alike

variable {a b : Expr}

theorem isNum_congr (h : a.beq b = true) : a.isNum = b.isNum := by
  cases a <;> cases b <;> first | rfl | exact nomatch h

theorem isSum_congr (h : a.beq b = true) : a.isSum = b.isSum := by
  cases a <;> cases b <;> first | rfl | exact nomatch h

theorem isProduct_congr (h : a.beq b = true) : a.isProduct = b.isProduct := by
  cases a <;> cases b <;> first | rfl | exact nomatch h

theorem isOne_congr (h : a.beq b = true) : a.isOne = b.isOne := by
  cases a <;> cases b <;> simp only [beq, Num.beq_iff, Bool.false_eq_true] at h <;> try rfl
  exact Num.isOne_congr h

theorem isZero_congr (h : a.beq b = true) : a.isZero = b.isZero := by
  cases a <;> cases b <;> simp only [beq, Num.beq_iff, Bool.false_eq_true] at h <;> try rfl
  exact Num.isZero_congr h

theorem isOne_iff : a.isOne = true ↔ a.fingerprint = Expr.one.fingerprint := by
  rw [← eq_iff]
  cases a <;> rfl

end Alike

theorem PowerForm.congr {b b' e e' : Expr} (form : PowerForm b e) (hb : b.beq b' = true)
    (he : e.beq e' = true) : PowerForm b' e' where
  base_ne_one := isOne_congr hb ▸ form.base_ne_one
  exponent_ne_zero := isZero_congr he ▸ form.exponent_ne_zero
  exponent_ne_one := isOne_congr he ▸ form.exponent_ne_one
  not_integer m n hm hn := by
    subst hm hn
    cases b <;> cases e <;> simp only [beq, Num.beq_iff, Bool.false_eq_true] at hb he
    exact Num.isInteger_congr he ▸ form.not_integer _ _ rfl rfl
  zero_base h := isNum_congr he ▸ form.zero_base (isZero_congr hb ▸ h)

/-! ## Products of powers -/

/-- The powers whose product is the expression without its rational factor, each as the fingerprints
of its base and its exponent.  A power of a number is a base of its own. -/
def powers : Expr → Multiset (ℕ × ℕ)
  | .num _ => 0
  | .power age b e =>
    if b.isNum then {((power age b e).fingerprint, Expr.one.fingerprint)}
    else {(b.fingerprint, e.fingerprint)}
  | .product _ _ factors => factorsFingerprint factors
  | e => {(e.fingerprint, Expr.one.fingerprint)}

theorem powers_of_isSum {e : Expr} (h : e.isSum = true) :
    e.powers = {(e.fingerprint, Expr.one.fingerprint)} := by
  cases e with
  | sum age c summands => rfl
  | _ => exact nomatch h

theorem powers_congr {a b : Expr} (h : a.beq b = true) : a.powers = b.powers := by
  have hf : a.fingerprint = b.fingerprint := eq_iff.mp h
  have hself : ({(a.fingerprint, Expr.one.fingerprint)} : Multiset (ℕ × ℕ)) =
      {(b.fingerprint, Expr.one.fingerprint)} := by rw [hf]
  cases a <;> cases b <;>
    simp only [beq, Num.beq_iff, Bool.and_eq_true, Bool.false_eq_true] at h <;> try rfl
  case var => exact hself
  case power =>
    rw [powers, powers, hf, isNum_congr h.1, (beq_iff _ _).mp h.1, (beq_iff _ _).mp h.2]
  case product =>
    simp only [fingerprint, Encodable.encode_inj, Prod.mk.injEq, true_and] at hf
    exact hf.2
  case sum => exact hself

/-- The fingerprint of the expression with a rational factor and powers. -/
noncomputable def assemble (q : ℚ) (M : Multiset (ℕ × ℕ)) : ℕ :=
  match M.toList with
  | [] => encode (0, encode q)
  | [p] =>
    if q = 1 then if p.2 = Expr.one.fingerprint then p.1 else encode (2, encode p)
    else encode (3, encode (q, M))
  | _ => encode (3, encode (q, M))

theorem assemble_singleton (p : ℕ × ℕ) : assemble 1 {p} =
    if p.2 = Expr.one.fingerprint then p.1 else encode (2, encode p) := by
  rw [assemble, Multiset.toList_singleton]
  exact if_pos rfl

theorem card_factorsFingerprint (factors : List (Expr × Expr)) :
    (factorsFingerprint factors).card = factors.length := by
  rw [factorsFingerprint_eq, Multiset.coe_card, List.length_map]

/-- **The rational factor and the powers determine a canonical expression.** -/
theorem Canonical.fingerprint_eq {e : Expr} (h : e.Canonical) :
    e.fingerprint = assemble e.scale e.powers := by
  have hself : ∀ n, assemble 1 {(n, Expr.one.fingerprint)} = n := fun n => by
    rw [assemble_singleton, if_pos rfl]
  cases h with
  | num n _ => rw [powers, assemble, Multiset.toList_zero]; rfl
  | var name => exact (hself _).symm
  | @power age b e hb he form =>
    rw [powers]
    split
    · exact (hself _).symm
    · have h1 : e.fingerprint ≠ Expr.one.fingerprint := fun h => by
        rw [← isOne_iff, form.exponent_ne_one] at h
        exact nomatch h
      rw [fingerprint, show (Expr.power age b e).scale = 1 from rfl, assemble_singleton, if_neg h1]
  | @product age c factors hc hb he form =>
    rw [powers, scale, assemble]
    have hlength : (factorsFingerprint factors).toList.length = factors.length := by
      rw [Multiset.length_toList, card_factorsFingerprint]
    split
    next h0 =>
      rw [h0] at hlength
      rcases form.entries with h | h <;> simp at hlength <;> omega
    next p h1 =>
      rw [h1] at hlength
      rw [if_neg (form.not_single hlength.symm), fingerprint]
    next => rw [fingerprint]
  | sum age hc ht hr form => exact (hself _).symm

theorem Canonical.eq_of_powers {a b : Expr} (ha : a.Canonical) (hb : b.Canonical)
    (hs : a.scale = b.scale) (hp : a.powers = b.powers) : (a == b) = true := by
  rw [eq_iff, ha.fingerprint_eq, hb.fingerprint_eq, hs, hp]

theorem Canonical.powers_ne_zero {e : Expr} (h : e.Canonical) (hn : e.isNum = false) :
    e.powers ≠ 0 := by
  cases h with
  | num n _ => exact nomatch hn
  | var name => exact Multiset.singleton_ne_zero _
  | power age hb he form =>
    rw [powers]
    split <;> exact Multiset.singleton_ne_zero _
  | @product age c factors hc hb he form =>
    intro h0
    have hlength := card_factorsFingerprint factors
    rw [show factorsFingerprint factors = 0 from h0, Multiset.card_zero] at hlength
    rcases form.entries with h | h <;> omega
  | sum age hc ht hr form => exact Multiset.singleton_ne_zero _

/-- No two powers of a canonical expression have the same base. -/
theorem Canonical.powers_nodup {e : Expr} (h : e.Canonical) :
    (e.powers.map Prod.fst).Nodup := by
  cases h with
  | num n _ => exact Multiset.nodup_zero
  | var name => exact Multiset.nodup_singleton _
  | power age hb he form =>
    rw [powers]
    split <;> exact Multiset.nodup_singleton _
  | @product age c factors hc hb he form =>
    rw [powers, factorsFingerprint_eq, Multiset.map_coe, Multiset.coe_nodup, List.map_map,
      List.Nodup, List.pairwise_map]
    refine form.distinct.imp fun {p q} hpq h => ?_
    rw [eq_iff.mpr h] at hpq
    exact nomatch hpq
  | sum age hc ht hr form => exact Multiset.nodup_singleton _

/-! ## Sums of products -/

/-- The constant of a sum, and a number itself; zero otherwise. -/
def constant : Expr → ℚ
  | .num n => n.value
  | .sum _ c _ => c.value
  | _ => 0

/-- The terms of a sum, and any expression but a number as its own term, each as powers with a
coefficient. -/
def addends : Expr → Multiset (Multiset (ℕ × ℕ) × ℚ)
  | .num _ => 0
  | .sum _ _ summands => (summands.map fun p => (p.1.powers, p.2.value) : List _)
  | e => {(e.powers, e.scale)}

theorem addends_product (age : Nat) (c : Num) (factors : List (Expr × Expr)) :
    (Expr.product age c factors).addends = {(factorsFingerprint factors, c.value)} := rfl

theorem addends_of_term {e : Expr} (hn : e.isNum = false) (hs : e.isSum = false) :
    e.addends = {(e.powers, e.scale)} := by
  cases e with
  | num n => exact nomatch hn
  | sum age c summands => exact nomatch hs
  | _ => rfl

theorem constant_of_term {e : Expr} (hn : e.isNum = false) (hs : e.isSum = false) :
    e.constant = 0 := by
  cases e with
  | num n => exact nomatch hn
  | sum age c summands => exact nomatch hs
  | _ => rfl

theorem SumForm.scale_eq_one {c : Num} {summands : List (Expr × Num)} (form : SumForm c summands) :
    ∀ p ∈ summands, p.1.scale = 1 := fun p hp =>
  scale_of_coefficient (form.term_not_num p hp) (form.term_coefficient p hp)

theorem card_addends_sum (age : Nat) (c : Num) (summands : List (Expr × Num)) :
    (Expr.sum age c summands).addends.card = summands.length := by
  rw [addends, Multiset.coe_card, List.length_map]

/-- A sum is no single term without a constant. -/
theorem SumForm.not_single {age : Nat} {c : Num} {summands : List (Expr × Num)}
    (form : SumForm c summands) : (Expr.sum age c summands).addends ≠ 0 ∧
      ((Expr.sum age c summands).addends.card = 1 → (Expr.sum age c summands).constant ≠ 0) := by
  have hentries := form.entries
  refine ⟨fun h0 => ?_, fun h1 h0 => ?_⟩
  · have hcard := card_addends_sum age c summands
    rw [h0, Multiset.card_zero] at hcard
    split at hentries <;> omega
  · rw [card_addends_sum] at h1
    rw [show c.isZero = true from Num.isZero_iff.mpr h0, if_pos rfl] at hentries
    omega

/-- A sum does not have the constant and the terms of what is no sum. -/
theorem SumForm.addends_ne {age : Nat} {c : Num} {summands : List (Expr × Num)}
    (form : SumForm c summands) {e : Expr} (hs : e.isSum = false)
    (hc : (Expr.sum age c summands).constant = e.constant) :
    (Expr.sum age c summands).addends ≠ e.addends := by
  intro had
  rcases e.num_or with ⟨n, rfl⟩ | hn
  · exact form.not_single.1 had
  · rw [constant_of_term hn hs] at hc
    exact form.not_single.2 (by rw [had, addends_of_term hn hs, Multiset.card_singleton]) hc

/-- The fingerprints of the entries of a canonical sum. -/
theorem SumForm.summandsFingerprint_eq {age : Nat} {c : Num} {summands : List (Expr × Num)}
    (form : SumForm c summands) (ht : ∀ p ∈ summands, p.1.Canonical) :
    summandsFingerprint summands =
      (Expr.sum age c summands).addends.map fun p => (assemble 1 p.1, p.2) := by
  rw [addends, Expr.summandsFingerprint_eq, Multiset.map_coe, List.map_map]
  refine congrArg _ (List.map_congr_left fun p hp => ?_)
  rw [(ht p hp).fingerprint_eq, form.scale_eq_one p hp]
  rfl

/-- **The constant and the terms determine a canonical expression.** -/
theorem Canonical.eq_of_addends {a b : Expr} (ha : a.Canonical) (hb : b.Canonical)
    (hc : a.constant = b.constant) (had : a.addends = b.addends) : (a == b) = true := by
  by_cases hs : a.isSum = true <;> by_cases hs' : b.isSum = true
  · cases ha with
    | sum age _ ht _ form =>
      cases hb with
      | sum age' _ ht' _ form' =>
        rw [eq_iff, fingerprint, fingerprint, form.summandsFingerprint_eq ht,
          form'.summandsFingerprint_eq ht', had]
        exact congrArg (fun q => encode (4, encode (q, _))) hc
      | _ => cases hs'
    | _ => cases hs
  · cases ha with
    | sum age _ _ _ form => exact absurd had (form.addends_ne (by simpa using hs') hc)
    | _ => cases hs
  · cases hb with
    | sum age _ _ _ form => exact absurd had.symm (form.addends_ne (by simpa using hs) hc.symm)
    | _ => cases hs'
  · rw [Bool.not_eq_true] at hs hs'
    rcases a.num_or with ⟨m, rfl⟩ | hn <;> rcases b.num_or with ⟨n, rfl⟩ | hn'
    · exact num_eq_iff.mpr hc
    · rw [addends_of_term hn' hs'] at had
      exact absurd had.symm (Multiset.singleton_ne_zero _)
    · rw [addends_of_term hn hs] at had
      exact absurd had (Multiset.singleton_ne_zero _)
    · rw [addends_of_term hn hs, addends_of_term hn' hs', Multiset.singleton_inj,
        Prod.mk.injEq] at had
      exact ha.eq_of_powers hb had.2 had.1

theorem addends_congr {a b : Expr} (h : a.beq b = true) : a.addends = b.addends := by
  have hself : ({(a.powers, a.scale)} : Multiset (Multiset (ℕ × ℕ) × ℚ)) =
      {(b.powers, b.scale)} := by rw [powers_congr h, scale_congr h]
  cases a <;> cases b <;>
    simp only [beq, Num.beq_iff, Bool.and_eq_true, Bool.false_eq_true] at h <;>
    try first | rfl | exact hself
  rw [addends, addends, Multiset.coe_eq_coe]
  exact (summandsMatch_map (fun p _ q ht hq => by rw [powers_congr ht, hq]) h.2).symm

theorem constant_congr {a b : Expr} (h : a.beq b = true) : a.constant = b.constant := by
  cases a <;> cases b <;>
    simp only [beq, Num.beq_iff, Bool.and_eq_true, Bool.false_eq_true] at h <;> try rfl
  case num => exact h
  case sum => exact h.1

/-- No two terms of a canonical expression are equal. -/
theorem Canonical.addends_nodup {e : Expr} (h : e.Canonical) :
    (e.addends.map Prod.fst).Nodup := by
  cases h with
  | num n _ => exact Multiset.nodup_zero
  | @sum age c summands _ ht _ form =>
    rw [addends, Multiset.map_coe, Multiset.coe_nodup, List.map_map, List.Nodup, List.pairwise_map]
    refine form.distinct.imp_of_mem fun {p q} hp hq hpq h => ?_
    rw [(ht p hp).eq_of_powers (ht q hq) ?_ h] at hpq
    · exact nomatch hpq
    · rw [form.scale_eq_one p hp, form.scale_eq_one q hq]
  | _ => exact Multiset.nodup_singleton _

end ExactAlgebra.Expr
