import ExactAlgebra.Proofs.Meaning.Construction

/-!
# Adding up the terms of a sum is exact

Before anything nested is merged, the terms of a sum have been added to a draft one after the other.
Numbers have gone into the constant, and every other term has been split into a coefficient and what
the draft holds it under, where equals meet and may cancel.

The value of a draft is known for constructions whose merges are timely.  Here nothing is merged, so
what is known holds whatever has been merged before.

* `Build.Unobserving`: constructions that have nothing to do with merges.
* `SumDraft.worth`: what a draft is worth, worked out like what an expression is worth.
* `SumDraft.absorbAll_exact`: the draft of some terms is worth their signed sum, and how its entries
  look.
-/

namespace ExactAlgebra

namespace Build

variable {α β γ : Type}

/-- The construction neither asks whether all merges were timely nor changes it. -/
def Unobserving (m : Build α) : Prop :=
  ∀ s b, m { s with timely := b } = ((m s).1, { (m s).2 with timely := b })

namespace Unobserving

variable {m m' : Build α}

theorem pure (a : α) : Unobserving (Pure.pure a) := fun _ _ => rfl

theorem throw (e : Fault) : Unobserving (MonadExcept.throw e : Build α) := fun _ _ => rfl

theorem fresh : Unobserving Build.fresh := fun _ _ => rfl

theorem bind {f : α → Build β} (h : Unobserving m) (hf : ∀ a, Unobserving (f a)) :
    Unobserving (m >>= f) := by
  intro s b
  rw [run_bind, run_bind, h s b]
  rcases m s with ⟨e | a, s'⟩
  · rfl
  · exact hf a s' b

theorem ite {c : Prop} [Decidable c] (h : Unobserving m) (h' : Unobserving m') :
    Unobserving (if c then m else m') := by
  split
  · exact h
  · exact h'

theorem foldlM {f : β → γ → Build β} {l : List γ} {b : β} (h : ∀ b c, Unobserving (f b c)) :
    Unobserving (l.foldlM f b) := by
  induction l generalizing b with
  | nil => exact .pure b
  | cons c l ih =>
    rw [List.foldlM_cons]
    exact (h b c).bind fun _ => ih

/-- What is returned has the value that a timely run gives. -/
theorem value {ν : Type} {f : α → Option ν} {t : Option ν} (hm : Unobserving m) (h : Gives m f t)
    (ht : t.isSome = true) {s : Supply} {a : α} (ha : (m s).1 = .ok a) : f a = t := by
  have htimely := h { s with timely := true }
  rw [hm s true, ha] at htimely
  exact (htimely rfl).2 ht

end Unobserving

end Build

open Build Partial ExactAlgebra.Expr

/-! ## Nothing is merged while terms are added -/

theorem Num.new_unobserving (r : Ratio) : Unobserving (Num.new r) :=
  Unobserving.fresh.bind fun _ => .pure _

theorem Num.integerPower_unobserving (b e : Num) : Unobserving (b.integerPower e) :=
  .ite (Unobserving.fresh.bind fun _ => Unobserving.fresh.bind fun _ => new_unobserving _)
    (new_unobserving _)

theorem Num.toPower_unobserving (b e : Num) : Unobserving (b.toPower e) := by
  rw [toPower_eq]
  exact .ite (.pure _) (.ite (.ite (.pure _) (.throw _))
    (.ite ((integerPower_unobserving b e).bind fun _ => .pure _)
      (Unobserving.fresh.bind fun _ => .pure _)))

namespace Expr

theorem ofPower_unobserving (b e : Expr) : Unobserving (ofPower b e) := by
  have hpower : Unobserving (do return Expr.power (← Build.fresh) b e) :=
    Unobserving.fresh.bind fun _ => .pure _
  rcases b.num_or with ⟨n, rfl⟩ | hn
  · rcases e.num_or with ⟨m, rfl⟩ | hm
    · exact Num.toPower_unobserving n m
    · rw [ofPower_num n hm]
      exact .ite (.pure _) hpower
  · rw [ofPower_symbolic hn]
    exact .ite (.pure _) (.ite (.pure _) hpower)

theorem separate_unobserving (age : Nat) (c : Num) (factors : List (Expr × Expr)) :
    Unobserving (separate age c factors) := by
  unfold separate
  split
  next b e => exact (ofPower_unobserving b e).bind fun _ => .pure _
  next => exact .ite (.pure _) (Unobserving.fresh.bind fun _ => .pure _)

end Expr

namespace SumDraft

theorem shift_unobserving (d : SumDraft) (n scale : Num) : Unobserving (d.shift n scale) :=
  (Num.new_unobserving _).bind fun _ => (Num.new_unobserving _).bind fun _ => .pure _

theorem enter_unobserving (d : SumDraft) (t : Expr) (c : Num) : Unobserving (d.enter t c) := by
  rw [enter_eq]
  exact (Num.new_unobserving _).bind fun _ => .pure _

theorem absorb_unobserving (d : SumDraft) (t : Expr) (scale : Num) :
    Unobserving (d.absorb t scale) := by
  have hscaled (d : SumDraft) (t : Expr) (c : Num) :
      Unobserving (do d.enter t (← c.multiply scale)) :=
    (Num.new_unobserving _).bind fun _ => enter_unobserving d t _
  cases t with
  | num n => exact shift_unobserving d n scale
  | var name => exact enter_unobserving d _ scale
  | power age b e => exact enter_unobserving d _ scale
  | product age c factors =>
    exact (separate_unobserving age c factors).bind fun p => hscaled d p.2 p.1
  | sum age c summands =>
    exact (shift_unobserving d c scale).bind fun _ => .foldlM fun d p => hscaled d p.1 p.2

theorem absorbAll_unobserving (d : SumDraft) (terms : SignedTerms) :
    Unobserving (d.absorbAll terms) := .foldlM fun d p => absorb_unobserving d p.1 _

/-! ## The draft of some terms -/

section Worth

variable (ρ : String → ℚ)

/-- What a draft is worth when its variables stand for rationals: the constant, and for each entry
the coefficient times what the term is worth. -/
def worth (d : SumDraft) : Worth :=
  .add (.rational d.constant.value) (summandsWorth ρ d.coefficients.entries)

variable {ρ}

theorem rational?_worth (d : SumDraft) :
    (d.worth ρ).rational? = d.denote .all fun name => some (ρ name) := by
  have hnode := Expr.rational?_worth (ρ := ρ) (.sum 0 d.constant d.coefficients.entries)
  rwa [Expr.worth, Expr.denote] at hnode

end Worth

/-- **Adding up terms is exact.**  From the terms a draft is always made.  When the terms are worth
rationals, it is worth their signed sum.  No two terms that it holds are equal, none is a number or
has a coefficient of its own, and no coefficient is zero. -/
theorem absorbAll_exact {terms : SignedTerms} (h : ∀ p ∈ terms, p.1.Obtainable) (s : Supply) :
    ∃ d, (SumDraft.empty.absorbAll terms s).1 = .ok d ∧
      (∀ (ρ : String → ℚ) (qs : List ℚ),
        List.Forall₂ (fun p q => p.1.worth ρ = .rational q) terms qs →
        d.worth ρ = .rational (signedSum terms qs)) ∧
      (d.coefficients.keys.Pairwise fun t u => (t == u) = false) ∧
      (∀ t ∈ d.coefficients.keys, t.isNum = false ∧ t.coefficient.value = 1) ∧
      ∀ p ∈ d.coefficients.entries, p.2.value ≠ 0 := by
  have hsound := absorbAll_sound .empty (fun p hp => (h p hp).canonical) s
  rcases hd : (SumDraft.empty.absorbAll terms s).1 with f | d
  · rw [hd] at hsound
    exact hsound.elim
  · rw [hd] at hsound
    obtain ⟨hdistinct, hentries⟩ := hsound
    refine ⟨d, rfl, fun ρ qs hqs => ?_, List.pairwise_map.mpr hdistinct, fun t ht => ?_,
      fun p hp => ?_⟩
    · have hdenote : List.Forall₂
          (fun p q => p.1.denote .all (fun name => some (ρ name)) = some q) terms qs :=
        hqs.imp fun p q hq => by rw [← Expr.rational?_worth, hq, Worth.rational?]
      have hgives := absorbAll_gives (A := .all) (ρ := fun name => some (ρ name)) terms .empty
      rw [denote_empty, zero_add, sum_denote hdenote] at hgives
      rw [← Worth.rational?_eq_some, rational?_worth]
      exact (absorbAll_unobserving _ terms).value hgives rfl hd
    · obtain ⟨p, hp, rfl⟩ := List.mem_map.mp ht
      obtain ⟨-, hnum, hone⟩ := (hentries p hp).1
      exact ⟨hnum, Num.isOne_iff.mp hone⟩
    · exact fun h0 => ne_true_of_eq_false (hentries p hp).2 (Num.isZero_iff.mpr h0)

/-- The sum `3 + 2 x^(1/2) - xy`. -/
def sumWithRoot : Expr :=
  .sum 25 ⟨3, 19⟩ [(.power 20 (.var "x") (.num ⟨.ofRat (1 / 2), 13⟩), ⟨2, 22⟩),
    (.product 17 .one [(.var "x", .num ⟨1, 15⟩), (.var "y", .num ⟨1, 16⟩)], ⟨-1, 24⟩)]

def twiceRoot : Expr := .product 34 ⟨2, 32⟩ [(.var "x", .num ⟨.ofRat (1 / 2), 33⟩)]

set_option maxRecDepth 2048 in
/-- When `2 x^(1/2)` is taken away from `3 + 2 x^(1/2) - xy`, the root cancels.  With `1` for `x`
and `5` for `y` the draft is worth `-2`. -/
theorem absorbAll_exact_cancelling : ∃ d,
    (SumDraft.empty.absorbAll [(sumWithRoot, .plus), (twiceRoot, .minus)] ⟨35, id, true⟩).1 =
      .ok d ∧
      d.coefficients.keys.length = 1 ∧
      d.worth (fun name => if name = "x" then 1 else 5) = .rational (-2) := by
  have hsum : sumWithRoot.Obtainable :=
    @Obtainable.parse 200 "3+2x^(1/2)-xy" _ .initial (by cbv)
  have hproduct : twiceRoot.Obtainable :=
    @Obtainable.parse 200 "2x^(1/2)" _ ⟨26, id, true⟩ (by cbv)
  have hlength : ((SumDraft.empty.absorbAll [(sumWithRoot, .plus), (twiceRoot, .minus)]
      ⟨35, id, true⟩).1.toOption.map fun d => d.coefficients.keys.length) = some 1 := by cbv
  have hsigned : signedSum [(sumWithRoot, .plus), (twiceRoot, .minus)] [0, 2] = -2 := by cbv
  have hterms : ∀ p ∈ [(sumWithRoot, Sign.plus), (twiceRoot, .minus)], p.1.Obtainable := by
    simp [hsum, hproduct]
  obtain ⟨d, hd, hworth, -⟩ := absorbAll_exact hterms ⟨35, id, true⟩
  rw [hd] at hlength
  refine ⟨d, hd, Option.some.inj hlength, ?_⟩
  rw [hworth _ [0, 2] (.cons (by cbv) (.cons (by cbv) .nil)), hsigned]

end SumDraft

end ExactAlgebra
