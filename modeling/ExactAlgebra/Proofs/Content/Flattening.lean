import ExactAlgebra.Proofs.Canonical.Obtainable
import ExactAlgebra.Proofs.Content.Products
import Mathlib

/-!
# Flattening

The order of the terms of a sum and of the factors of a product does not matter, and some of them
may be put together first, in so far as this merges the same sums and products.

A multiple of a sum and a power of a product are kept as they are until the coefficient or the
exponent has become one.  Then the sum or product is merged for good, and a further multiple or
power of it no longer meets it.  So there are terms and factors for which it matters what is put
together first (`flattening_fails`); that nothing of this kind happens to the given ones is what the
conditions of `flattening_agrees` say.
-/

namespace ExactAlgebra

open Build

namespace Expr

/-- **Flattening is commutative and associative**: timely runs of the constructions return equal
expressions for permuted terms and factors, and if some of them are put together first. -/
theorem flattening_agrees :
    (∀ A A' : SignedTerms, (∀ p ∈ A, Obtainable p.1 ∧ p.1.Merged) → A'.Perm A →
      Agree (ofSum A') (ofSum A)) ∧
    (∀ A B : SignedTerms, (∀ p ∈ A ++ B, Obtainable p.1 ∧ p.1.Merged) →
      sumMerging.Undisturbed (totalContent A) (totalContent B) →
      Agree (do ofSum ((← ofSum A, .plus) :: B)) (ofSum (A ++ B))) ∧
    (∀ A A' : List Expr, (∀ e ∈ A, Obtainable e ∧ e.Merged) → Orderly (A.map powers).sum →
      A'.Perm A → Agree (ofProduct A' []) (ofProduct A [])) ∧
    ∀ A B : List Expr, (∀ e ∈ A ++ B, Obtainable e ∧ e.Merged) →
      (∀ N, Leaves A N → Orderly (N + (B.map powers).sum)) →
      (∀ c, productMerging.Flattens (extent A) c → Resolved c.2) →
      productMerging.Undisturbed (extent A) (extent B) →
      Agree (do ofProduct ((← ofProduct A []) :: B) []) (ofProduct (A ++ B) []) := by
  have hstable : ∀ {e : Expr}, Obtainable e ∧ e.Merged → e.Stable := fun h =>
    ⟨h.1.canonical, h.2⟩
  exact ⟨fun A A' h => ofSum_perm fun p hp => hstable (h p hp),
    fun A B h => ofSum_nested fun p hp => hstable (h p hp),
    fun A A' h => ofProduct_perm fun e he => hstable (h e he),
    fun A B h => ofProduct_nested fun e he => hstable (h e he)⟩

/-! ## Factors with nothing to merge -/

section Factors

variable {xs : List Expr}

/-- What holds of the powers of all factors. -/
theorem forall_mem_powers {P : ℕ × ℕ → Prop}
    (h : ∀ p ∈ xs.flatMap powerList, P (p.1.fingerprint, p.2.fingerprint)) :
    ∀ p ∈ (xs.map powers).sum, P p := by
  rw [sum_powers, factorsFingerprint_eq]
  intro p hp
  obtain ⟨q, hq, rfl⟩ := List.mem_map.mp (Multiset.mem_coe.mp hp)
  exact h q hq

theorem productFree_of_bases (h : ∀ p ∈ xs.flatMap powerList, p.1.isProduct = false) :
    ProductFree (xs.map powers).sum := by
  refine forall_mem_powers fun p hp hbase => ?_
  obtain ⟨b, -, hb, hfp⟩ := hbase
  rw [isProduct_congr ((beq_iff _ _).mpr hfp), h p hp] at hb
  cases hb

theorem resolved_of_bases (h : ∀ p ∈ xs.flatMap powerList, p.1.isSymbolicPower = false) :
    Resolved (degreesOf (xs.map powers).sum) := by
  intro b _ hb h1
  rw [degreesOf_apply_of_notMem] at h1
  · exact zero_ne_one (congrArg Prod.fst h1)
  · intro hmem
    obtain ⟨p, hp, hpb⟩ := Multiset.mem_map.mp hmem
    refine forall_mem_powers (P := fun p => p.1 ≠ b.fingerprint) (fun q hq hqb => ?_) p hp hpb
    rw [← isSymbolicPower_congr ((beq_iff _ _).mpr hqb), h q hq] at hb
    cases hb

theorem orderly_of_bases (hb : ∀ p ∈ xs.flatMap powerList, p.1.isProduct = false)
    (he : ∀ p ∈ xs.flatMap powerList, Plain p.2.content.2) : Orderly (xs.map powers).sum :=
  .of_plain (productFree_of_bases hb) (forall_mem_powers (P := fun p => Plain (contentOf p.2).2)
    fun p hp => by rw [contentOf_fingerprint]; exact he p hp)

end Factors

/-! ## Instances -/

/-- The expression of `2(x+y)`. -/
def twice : Expr :=
  .product 11 ⟨2, 9⟩ [(.sum 8 .zero [(.var "x", ⟨1, 6⟩), (.var "y", ⟨1, 7⟩)], .num ⟨1, 10⟩)]

/-- The expression of `(x+y)*-1`. -/
def opposite : Expr :=
  .product 12 ⟨-1, 11⟩ [(.sum 8 .zero [(.var "x", ⟨1, 6⟩), (.var "y", ⟨1, 7⟩)], .num ⟨1, 10⟩)]

/-- The expression of `y^z`. -/
def tower : Expr := .power 5 (.var "y") (.var "z")

/-- The expression of `x^-2`. -/
def inverseSquare : Expr := .power 7 (.var "x") (.num ⟨-2, 6⟩)

theorem twice_obtainable : Obtainable twice := @Obtainable.parse 9 "2(x+y)" _ .initial (by cbv)

theorem opposite_obtainable : Obtainable opposite :=
  @Obtainable.parse 9 "(x+y)*-1" _ .initial (by cbv)

theorem tower_obtainable : Obtainable tower := @Obtainable.parse 9 "y^z" _ .initial (by cbv)

theorem inverseSquare_obtainable : Obtainable inverseSquare :=
  @Obtainable.parse 9 "x^-2" _ .initial (by cbv)

theorem multiple_merged (age : Nat) (n : Num) : (Expr.product age n
    [(.sum 8 .zero [(.var "x", ⟨1, 6⟩), (.var "y", ⟨1, 7⟩)], .num ⟨1, 10⟩)]).Merged := by
  refine .product age ?_ ?_ ?_
  · rw [List.forall_mem_singleton]
    exact .sum 8 (by simpa using ⟨.var "x", .var "y"⟩)
  · rw [List.forall_mem_singleton]
    exact .num _
  · rw [List.forall_mem_singleton]
    exact fun _ => rfl

/-- Started with nothing built, the constructions return equal expressions. -/
def ReturnEqual (m m' : Build Expr) : Prop :=
  ∃ r r', m.run = .ok r ∧ m'.run = .ok r' ∧ (r == r') = true

/-- Multiples of `x+y` are added in either order, and before `x`; `x` and `y^z` are multiplied in
either order, and before `x^-2`. -/
theorem flattening_agrees_multiples :
    ReturnEqual (ofSum [(opposite, .plus), (twice, .plus)])
      (ofSum [(twice, .plus), (opposite, .plus)]) ∧
    ReturnEqual (do ofSum [(← ofSum [(twice, .plus), (opposite, .plus)], .plus), (.var "x", .plus)])
      (ofSum [(twice, .plus), (opposite, .plus), (.var "x", .plus)]) ∧
    ReturnEqual (ofProduct [tower, .var "x"] []) (ofProduct [.var "x", tower] []) ∧
    ReturnEqual (do ofProduct [← ofProduct [.var "x", tower] [], inverseSquare] [])
      (ofProduct [.var "x", tower, inverseSquare] []) := by
  have htwice : Obtainable twice ∧ twice.Merged := ⟨twice_obtainable, multiple_merged _ _⟩
  have hopposite : Obtainable opposite ∧ opposite.Merged :=
    ⟨opposite_obtainable, multiple_merged _ _⟩
  have hx : Obtainable (.var "x") ∧ (Expr.var "x").Merged := ⟨.var "x", .var "x"⟩
  have htower : Obtainable tower ∧ tower.Merged :=
    ⟨tower_obtainable, .power 5 (.var "y") (.var "z")⟩
  have hinverse : Obtainable inverseSquare ∧ inverseSquare.Merged :=
    ⟨inverseSquare_obtainable, .power 7 (.var "x") (.num _)⟩
  have hvar : ∀ name, Plain (Expr.var name).content.2 := fun name =>
    (Canonical.var name).plain rfl rfl rfl
  have hterm : Plain (totalContent [(.var "x", .plus)]).2 := by
    rw [totalContent_single]
    exact hvar "x"
  have hpair : [.var "x", tower].flatMap powerList = [(.var "x", .one), (.var "y", .var "z")] := rfl
  have hall : [.var "x", tower, inverseSquare].flatMap powerList =
      [(.var "x", .one), (.var "y", .var "z"), (.var "x", .num ⟨-2, 6⟩)] := rfl
  have hbases : ∀ p ∈ [.var "x", tower].flatMap powerList,
      p.1.isProduct = false ∧ p.1.isSymbolicPower = false := by
    rw [hpair]
    simp [isProduct, isSymbolicPower]
  have hfree := productFree_of_bases fun p hp => (hbases p hp).1
  have hquiet : productMerging.due (extent [.var "x", tower]) = ∅ :=
    due_product_eq_empty_iff.mpr hfree.quietDegrees
  have horderly : Orderly ([.var "x", tower, inverseSquare].map powers).sum := by
    refine orderly_of_bases ?_ ?_
    · rw [hall]
      simp [isProduct]
    · rw [hall]
      simpa [content_one] using ⟨Plain.zero, hvar "z", Plain.zero⟩
  have hleaves : ∀ N, Leaves [.var "x", tower] N →
      Orderly (N + ([inverseSquare].map powers).sum) := by
    rintro N (hN | ⟨h0, -⟩)
    · rwa [hN.eq_of_quiet hfree.quietDegrees, ← List.sum_append, ← List.map_append]
    · simp [scale, tower] at h0
  have hresolved : ∀ c, productMerging.Flattens (extent [.var "x", tower]) c → Resolved c.2 := by
    intro c hc
    rw [hc.eq_of_due hquiet]
    exact resolved_of_bases fun p hp => (hbases p hp).2
  obtain ⟨hsums, hnestedSums, hproducts, hnestedProducts⟩ := flattening_agrees
  refine ⟨?_, ?_, ?_, ?_⟩
  · exact hsums [(twice, .plus), (opposite, .plus)] _ (by simpa using ⟨htwice, hopposite⟩)
      (.swap _ _ _) .initial .initial (by cbv) (by cbv)
  · exact hnestedSums [(twice, .plus), (opposite, .plus)] [(.var "x", .plus)]
      (by simpa using ⟨htwice, hopposite, hx⟩) (undisturbed_of_plain hterm _) .initial .initial
      (by cbv) (by cbv)
  · exact hproducts [.var "x", tower] _ (by simpa using ⟨hx, htower⟩)
      (.of_add fun N hN => hleaves N (.inl hN)) (.swap _ _ _) .initial .initial (by cbv) (by cbv)
  · exact hnestedProducts [.var "x", tower] [inverseSquare]
      (by simpa using ⟨hx, htower, hinverse⟩) hleaves hresolved (.of_due hquiet _) .initial .initial
      (by cbv) (by cbv)

/-- A timely run finds two expressions to be different. -/
def FindsDifferent (m : Build Bool) : Prop :=
  (m .initial).1 = .ok false ∧ (m .initial).2.timely = true

/-- When `2(x+y)` and `-(x+y)` have been added, `x+y` is merged, and what is taken away then is not
taken from it.  The same happens in exponents, and to powers of `xy`. -/
theorem flattening_fails :
    FindsDifferent (do
      let a ← parse defaultLimit "2(x+y)"
      let b ← parse defaultLimit "(x+y)*-1"
      let nested ← ofSum [(← ofSum [(a, .plus), (b, .plus)], .plus), (b, .plus)]
      return nested == (← ofSum [(a, .plus), (b, .plus), (b, .plus)])) ∧
    FindsDifferent (do
      let a ← parse defaultLimit "z^(2(x+y))"
      let b ← parse defaultLimit "z^((x+y)*-1)"
      return (← ofProduct [b, b, a] []) == (← ofProduct [a, b, b] [])) ∧
    FindsDifferent (do
      let a ← parse defaultLimit "(xy)^2"
      let b ← parse defaultLimit "(xy)^-1"
      let nested ← ofProduct [← ofProduct [a, b] [], b] []
      return nested == (← ofProduct [a, b, b] [])) :=
  ⟨⟨by cbv, by cbv⟩, ⟨by cbv, by cbv⟩, by cbv, by cbv⟩

end Expr

end ExactAlgebra
