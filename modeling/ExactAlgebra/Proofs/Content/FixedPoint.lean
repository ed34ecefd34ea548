import ExactAlgebra.Proofs.Canonical.Obtainable
import ExactAlgebra.Proofs.Content.Construction
import ExactAlgebra.Proofs.Meaning.Worth
import ExactAlgebra.Proofs.Traversal

/-!
# Rebuilding expressions

Merged expressions are fixed points of the constructions.  A sum or a product of a single expression
is the expression, a further zero or one changes nothing, and the variables may be replaced by
themselves.  What is built has the content of the expression, or its rational factor and its powers,
and these determine it.

* `Build.Restores`: the construction always returns what is equal to the expression.
* `rebuild_copies`: replacing variables by themselves builds every node again.
* `restores_of_merged`: merged expressions are fixed points.
-/

namespace ExactAlgebra

open Build Partial ExactAlgebra.Expr

/-- From every supply, the construction returns what is equal to the expression. -/
def Build.Restores (m : Build Expr) (e : Expr) : Prop :=
  ∀ s, ∃ r, (m s).1 = .ok r ∧ (r == e) = true

theorem Build.Ensures.restores {m : Build Expr} {e : Expr} (h : Ensures m (Copies e) NoFault) :
    m.Restores e := by
  intro s
  have hs := h s
  split at hs
  next r hr => exact ⟨r, hr, hs.2⟩
  next => exact hs.elim

namespace Expr

/-- What is equal to a term is a term. -/
theorem Term.congr {t r : Expr} (ht : t.Term) (hr : Copies t r) : r.Term := by
  refine ⟨hr.1, isNum_congr hr.2 ▸ ht.2.1, ?_⟩
  have hscale : r.scale = 1 := (scale_congr hr.2).trans ht.scale_eq_one
  cases r with
  | product age c factors => exact Num.isOne_iff.mpr hscale
  | _ => rfl

/-! ## Single expressions -/

/-- A product with the rational factor and the powers of an expression is the expression. -/
theorem ofProduct_copies {e : Expr} (hc : e.Canonical) (hn : e.isNum = false) {xs : List Expr}
    (h : Multiplies e.scale e.powers xs []) : Ensures (ofProduct xs []) (Copies e) NoFault :=
  (ofProduct_powers h (hc.scale_ne_zero hn) hc.powers_nodup).imp fun _ hr =>
    ⟨hr.stable.canonical, hr.stable.canonical.eq_of_powers hc hr.scale hr.powers⟩

/-- A product of numbers is a number. -/
theorem ofProduct_number {n : Num} (factors : List Num)
    (h : (factors.map fun m => some m.value).prod = some n.value) :
    Ensures (ofProduct (factors.map .num) []) (Copies (.num n)) NoFault := by
  have hproduct := ofProduct_calculates_factors factors (F := NoFault)
  rw [h] at hproduct
  refine hproduct.mono ?_ fun _ he => he.2
  rintro _ ⟨m, rfl, hm⟩
  exact ⟨.ofNum m, num_eq_iff.mpr (Option.some.inj hm).symm⟩

theorem ofSum_single {e : Expr} (h : e.Stable) : Ensures (ofSum [(e, .plus)]) (Copies e) NoFault :=
  ofSum_copies h.canonical ⟨by simpa using h, totalContent_single e⟩

theorem ofSum_zero {e z : Expr} (h : e.Stable) (hz : z.isZero = true) :
    Ensures (ofSum [(e, .plus), (z, .plus)]) (Copies e) NoFault := by
  obtain ⟨n, rfl⟩ : ∃ n, z = .num n := z.num_or.resolve_right fun hn => by
    rw [isZero_of_not_num hn] at hz
    cases hz
  refine ofSum_copies h.canonical ⟨by simpa using ⟨h, .num n⟩, ?_⟩
  rw [totalContent_plus, totalContent_single, content_of_isZero hz, add_zero]

theorem ofProduct_single {e : Expr} (h : e.Stable) :
    Ensures (ofProduct [e] []) (Copies e) NoFault := by
  rcases e.num_or with ⟨n, rfl⟩ | hn
  · exact ofProduct_number [n] List.prod_singleton
  · exact ofProduct_copies h.canonical hn
      ⟨by simpa using h, rfl, List.prod_singleton, List.sum_singleton⟩

theorem ofProduct_one {e u : Expr} (h : e.Stable) (hu : u.isOne = true) :
    Ensures (ofProduct [e, u] []) (Copies e) NoFault := by
  obtain ⟨m, rfl⟩ : ∃ m, u = .num m := u.num_or.resolve_right fun hn => by
    rw [isOne_of_not_num hn] at hu
    cases hu
  have hm : m.value = 1 := Num.isOne_iff.mp hu
  rcases e.num_or with ⟨n, rfl⟩ | hn
  · refine ofProduct_number [n, m] ?_
    simp [hm]
  · refine ofProduct_copies h.canonical hn ⟨by simpa using ⟨h, .num m⟩, rfl, ?_, ?_⟩
    · rw [List.map_cons, List.prod_cons, List.map_singleton, List.prod_singleton, scale.eq_1, hm,
        mul_one]
    · rw [List.map_cons, List.sum_cons, List.map_singleton, List.sum_singleton, powers.eq_1,
        add_zero]

/-! ## Replacing variables by themselves -/

/-- Replaces every variable by itself, and so builds every node again. -/
def rebuild (e : Expr) : Build Expr := e.substitute fun name => some (.var name)

/-- A further factor multiplies the rational factor and adds its powers. -/
theorem Multiplies.cons {q r : ℚ} {M N : Multiset (ℕ × ℕ)} {x : Expr} {xs divisors : List Expr}
    (hx : HasPowers q M x) (h : Multiplies r N xs divisors) :
    Multiplies (q * r) (M + N) (x :: xs) divisors where
  stable := List.forall_mem_cons.mpr ⟨hx.stable, h.stable⟩
  no_divisors := h.no_divisors
  scale := by rw [List.map_cons, List.prod_cons, hx.scale, h.scale]
  powers := by rw [List.map_cons, List.sum_cons, hx.powers, h.powers]

/-- A further term adds its content. -/
theorem Adds.cons {c c' : Content} {t : Expr} {terms : SignedTerms} (ht : HasContent c t)
    (h : Adds c' terms) : Adds (c + c') ((t, .plus) :: terms) where
  stable := List.forall_mem_cons.mpr ⟨ht.stable, h.stable⟩
  content := by rw [totalContent_plus, ht.content, h.content]

/-- A product is built again when the power that is made of each of its entries is that entry. -/
theorem ofProduct_rebuilds {age : Nat} {c : Num} {factors : List (Expr × Expr)}
    (hc : (Expr.product age c factors).Canonical) {power : Expr → Expr → Build Expr}
    (h : ∀ p ∈ factors, Ensures (power p.1 p.2)
      (HasPowers 1 {(p.1.fingerprint, p.2.fingerprint)}) NoFault) :
    Ensures (do ofProduct (.num c :: (← factorsWith power factors)) [])
      (Copies (.product age c factors)) NoFault := by
  have hfactors : Ensures (factorsWith power factors)
      (Multiplies 1 (factorsFingerprint factors) · []) NoFault := by
    clear hc
    induction factors with
    | nil => exact .pure ⟨List.forall_mem_nil _, rfl, rfl, rfl⟩
    | cons p factors ih =>
      rw [List.forall_mem_cons] at h
      rw [factorsWith, factorsFingerprint, ← Multiset.singleton_add]
      refine h.1.bind fun r hr => (ih h.2).bind fun xs hxs => .pure ?_
      have hcons := Multiplies.cons hr hxs
      rwa [one_mul] at hcons
  refine hfactors.bind fun xs hxs => ofProduct_copies hc rfl ?_
  have hcons := Multiplies.cons (q := c.value) (M := 0) ⟨.num c, rfl, rfl⟩ hxs
  rwa [zero_add, mul_one] at hcons

/-- A merged sum is built again from what is equal to its terms. -/
theorem ofSum_rebuilds {age : Nat} {c : Num} {summands : List (Expr × Num)}
    (hc : (Expr.sum age c summands).Canonical) (hm : ∀ p ∈ summands, p.1.Merged)
    {term : Expr → Build Expr} (h : ∀ p ∈ summands, Ensures (term p.1) (Copies p.1) NoFault) :
    Ensures (do ofSum ((← summandsWith term summands) ++ [(.num c, .plus)]))
      (Copies (.sum age c summands)) NoFault := by
  have hterm : ∀ p ∈ summands,
      p.1.Term ∧ p.2.isZero = false ∧ (p.1.isSum = true → p.2.isOne = false) := by
    cases hc with
    | sum _ _ ht _ form =>
      exact fun p hp => ⟨⟨ht p hp, form.term_not_num p hp, form.term_coefficient p hp⟩,
        form.coefficient_ne_zero p hp, form.nested p hp⟩
  have hsummands : Ensures (summandsWith term summands) (Adds
      (0, collect (summands.map fun p => (p.1.powers, p.2.value) : List _))) NoFault := by
    clear hc
    induction summands with
    | nil =>
      refine .pure ⟨List.forall_mem_nil _, ?_⟩
      rw [List.map_nil, Multiset.coe_nil, collect_zero]
      rfl
    | cons p summands ih =>
      obtain ⟨t, n⟩ := p
      rw [List.forall_mem_cons] at hterm hm h
      obtain ⟨ht, h0, h1⟩ := hterm.1
      rw [summandsWith, List.map_cons, ← Multiset.cons_coe, collect_cons]
      refine h.1.bind fun t' ht' => ?_
      have hmultiple := ofProduct_multiple (n := n) (ht.congr ht') (ht'.stable hm.1).merged
        (fun h => ne_true_of_eq_false h0 (Num.isZero_iff.mpr h)) fun hs h =>
          ne_true_of_eq_false (h1 (isSum_congr ht'.2 ▸ hs)) (Num.isOne_iff.mpr h)
      refine hmultiple.bind fun r hr => (ih hm.2 h.2 hterm.2).bind fun terms hterms => .pure ?_
      have hcons := Adds.cons hr hterms
      rwa [Prod.mk_add_mk, zero_add, powers_congr ht'.2] at hcons
  refine hsummands.bind fun terms hterms => ofSum_copies hc ⟨?_, ?_⟩
  · exact List.forall_mem_append.mpr ⟨hterms.stable, by simpa using .num c⟩
  · rw [totalContent_append, hterms.content, totalContent_single, content_num, content_sum,
      Prod.mk_add_mk, zero_add, add_zero]

/-- A power is built again from what is equal to its base and its exponent. -/
theorem ofPower_copies {age : Nat} {b e b' e' : Expr} (hc : (Expr.power age b e).Canonical)
    (hb : Copies b b') (he : Copies e e') :
    Ensures (ofPower b' e') (Copies (.power age b e)) NoFault := by
  cases hc with
  | power _ _ _ form =>
    have form' := form.congr hb.symm he.symm
    refine (ofPower_form form').imp ?_
    rintro _ ⟨age', rfl⟩
    refine ⟨.power age' hb.1 he.1 form', ?_⟩
    rw [beq, hb.2, he.2, Bool.and_self]

/-- An entry is built again from what is equal to its base and its exponent. -/
theorem Entry.ofPower_copies {b e b' e' : Expr} (h : Entry b e) (hb : Copies b b')
    (he : Copies e e') :
    Ensures (ofPower b' e') (HasPowers 1 {(b.fingerprint, e.fingerprint)}) NoFault := by
  rw [← eq_iff.mp hb.2, ← eq_iff.mp he.2]
  exact (h.congr hb.symm he.symm).ofPower_stable hb.1 he.1

/-- **Replacing variables by themselves gives the expression back.** -/
theorem rebuild_copies {e : Expr} (hc : e.Canonical) (hm : e.Merged) :
    Ensures e.rebuild (Copies e) NoFault := by
  induction hc with
  | num n _ => exact .pure (.refl (.ofNum n))
  | var name => exact .pure (.refl (.var name))
  | @power age b e hb he form ihb ihe =>
    cases hm with
    | power _ hmb hme =>
      exact (ihb hmb).bind fun b' hb' => (ihe hme).bind fun e' he' =>
        Expr.ofPower_copies (.power age hb he form) hb' he'
  | @product age c factors hred hb he form ihb ihe =>
    have hcanonical : (Expr.product age c factors).Canonical := .product age hred hb he form
    have hentries := hm.entries hcanonical
    cases hm with
    | product _ hmb hme _ =>
      rw [rebuild, substitute, substituteFactors_eq]
      exact ofProduct_rebuilds hcanonical fun p hp => (ihb p hp (hmb p hp)).bind fun b' hb' =>
        (ihe p hp (hme p hp)).bind fun e' he' =>
          (hentries _ _ (mem_factorsFingerprint hp)).ofPower_copies hb' he'
  | @sum age c summands hred ht hr form ih =>
    cases hm with
    | sum _ hmt =>
      rw [rebuild, substitute, substituteSummands_eq]
      exact ofSum_rebuilds (.sum age hred ht hr form) hmt fun p hp => ih p hp (hmt p hp)

/-! ## Fixed points -/

/-- **Merged expressions are fixed points of the constructions**: a sum or a product of nothing but
the expression gives it back, also with a zero or a one beside it, and so does an evaluation with
every variable bound to itself. -/
theorem restores_of_merged {e : Expr} (he : Obtainable e) (hm : e.Merged) :
    (ofSum [(e, .plus)]).Restores e ∧
    (ofProduct [e] []).Restores e ∧
    (∀ z : Expr, z.isZero = true → (ofSum [(e, .plus), (z, .plus)]).Restores e) ∧
    (∀ u : Expr, u.isOne = true → (ofProduct [e, u] []).Restores e) ∧
    ∀ bindings : Bindings, (∀ name ∈ e.names, bindings.value? name = some (.var name)) →
      (e.evaluate bindings).Restores e := by
  have hs : e.Stable := ⟨he.canonical, hm⟩
  refine ⟨(ofSum_single hs).restores, (ofProduct_single hs).restores,
    fun z hz => (ofSum_zero hs hz).restores, fun u hu => (ofProduct_one hs hu).restores,
    fun bindings hb => ?_⟩
  have hevaluate : e.evaluate bindings = e.rebuild := substitute_congr hb
  rw [hevaluate]
  exact (rebuild_copies hs.canonical hm).restores

/-- The expression of `2x^-y(x+1)-3/2`. -/
def towerAndSum : Expr :=
  .sum 35 ⟨.ofRat (-3 / 2), 34⟩
    [(.product 30 .one
      [(.var "x", .product 25 ⟨-1, 24⟩ [(.var "y", .num ⟨1, 23⟩)]),
        (.sum 12 ⟨1, 11⟩ [(.var "x", ⟨1, 9⟩)], .num ⟨1, 26⟩)], ⟨2, 32⟩)]

theorem towerAndSum_merged : towerAndSum.Merged := by
  have hexponent : (Expr.product 25 ⟨-1, 24⟩ [(.var "y", .num ⟨1, 23⟩)]).Merged := by
    refine .product 25 ?_ ?_ ?_
    · simpa using .var "y"
    · simpa using .num _
    · simp [isSymbolicPower]
  have hinner : (Expr.sum 12 ⟨1, 11⟩ [(.var "x", ⟨1, 9⟩)]).Merged :=
    .sum 12 (by simpa using .var "x")
  refine .sum 35 ?_
  rw [List.forall_mem_singleton]
  refine .product 30 ?_ ?_ ?_
  · simpa using ⟨.var "x", hinner⟩
  · simpa using ⟨hexponent, .num _⟩
  · simp [isSymbolicPower]

/-- `2x^-y(x+1)-3/2` is built again from its parts, and with `x` and `y` for themselves. -/
theorem restores_of_merged_tower :
    (ofSum [(towerAndSum, .plus)]).Restores towerAndSum ∧
    (ofProduct [towerAndSum] []).Restores towerAndSum ∧
    (ofSum [(towerAndSum, .plus), (.zero, .plus)]).Restores towerAndSum ∧
    (ofProduct [towerAndSum, .one] []).Restores towerAndSum ∧
    (towerAndSum.evaluate [("x", .var "x"), ("y", .var "y")]).Restores towerAndSum := by
  have hobtainable : Obtainable towerAndSum :=
    @Obtainable.parse 9 "2x^-y(x+1)-3/2" _ .initial (by cbv)
  have hnames : towerAndSum.names = ["x", "y", "x"] := rfl
  obtain ⟨hsum, hproduct, hzero, hone, hevaluate⟩ :=
    restores_of_merged hobtainable towerAndSum_merged
  exact ⟨hsum, hproduct, hzero .zero rfl, hone .one rfl,
    hevaluate _ (by rw [hnames]; simp [Bindings.value?])⟩

/-- The construction returns something else, when it starts with nothing built. -/
def Alters (m : Build Expr) (e : Expr) : Prop := ∃ r, m.run = .ok r ∧ (r == e) = false

/-- A symbolic power whose exponent has cancelled down to one is an entry like any other, until it
is built again.  In `z^(2(x^y)^2(x^y)^-1)` no construction leaves it as it is. -/
theorem alters_unmerged : ∃ e, (parse defaultLimit "z^(2(x^y)^2(x^y)^-1)" .initial).1 = .ok e ∧
    Alters (ofSum [(e, .plus)]) e ∧ Alters (ofProduct [e] []) e ∧
    Alters (ofSum [(e, .plus), (.zero, .plus)]) e ∧ Alters (ofProduct [e, .one] []) e ∧
    Alters (e.evaluate [("x", .var "x"), ("y", .var "y"), ("z", .var "z")]) e :=
  ⟨_, by cbv, ⟨_, by cbv, by cbv⟩, ⟨_, by cbv, by cbv⟩, ⟨_, by cbv, by cbv⟩, ⟨_, by cbv, by cbv⟩,
    ⟨_, by cbv, by cbv⟩⟩

end Expr

end ExactAlgebra
