import ExactAlgebra.Proofs.Failure

/-!
# Constructions without a budget

`sumAt` counts the levels of symbolic exponents and `flatten` counts its rounds, so both are given
enough to begin with.  Here products and sums call each other freely and merge for as long as
anything is nested, and only a budget cuts a run short: every call of the one by the other and every
round of merging takes from it.  What halts is what some budget, and then every larger one, lets
finish.

* `productWithin`, `sumWithin`: products and sums within a budget.
* `Build.Approaches m m'`: unless `m'` is exhausted, each run of `m` is cut short or does what `m'`
  does, and from some budget on it does that.
* `sumWithin_approaches`: whatever the level, the budgeted sums approach `sumAt`.
* `constructions_halt`: every construction halts.
-/

namespace ExactAlgebra

/-! ## Runs within a budget -/

namespace Build

variable {α β : Type}

/-- Each run of `m` is cut short or does what `m'` does, and from some budget on it does that;
nothing is said of where `m'` is exhausted itself. -/
def Approaches (m : Nat → Build α) (m' : Build α) : Prop :=
  ∀ s, (m' s).1 = .error .exhausted ∨
    (∀ budget, (m budget s).1 = .error .exhausted ∨ m budget s = m' s) ∧
      ∃ N, ∀ budget, N ≤ budget → m budget s = m' s

/-- The construction is never exhausted, and large enough budgets let every run of `m` finish with
its outcome; a smaller one may cut the run short but never changes the outcome. -/
def Halts (m : Nat → Build α) (m' : Build α) : Prop :=
  ∀ s, (m' s).1 ≠ .error .exhausted ∧
    (∀ budget, (m budget s).1 = .error .exhausted ∨ m budget s = m' s) ∧
      ∃ N, ∀ budget, N ≤ budget → m budget s = m' s

theorem Finishes.not_exhausted {m : Build α} {P : α → Prop} (h : Finishes m P) (s : Supply) :
    (m s).1 ≠ .error .exhausted := by
  intro he
  have hs := h s
  rw [he] at hs
  exact hs rfl

theorem Approaches.halts {m : Nat → Build α} {m' : Build α} {P : α → Prop} (h : Approaches m m')
    (hm : Finishes m' P) : Halts m m' := by
  intro s
  have hs := hm.not_exhausted s
  exact ⟨hs, (h s).resolve_left hs⟩

namespace Approaches

variable {m : Nat → Build α} {m' : Build α}

theorem refl (m : Build α) : Approaches (fun _ => m) m :=
  fun _ => .inr ⟨fun _ => .inr rfl, 0, fun _ _ => rfl⟩

theorem exhausted : Approaches m (MonadExcept.throw .exhausted) := fun _ => .inl rfl

/-- A budget of nothing may cut every run short. -/
theorem succ (hzero : ∀ s, (m 0 s).1 = .error .exhausted)
    (h : Approaches (fun budget => m (budget + 1)) m') : Approaches m m' := by
  intro s
  rcases h s with he | ⟨hany, N, hN⟩
  · exact .inl he
  · refine .inr ⟨fun budget => ?_, N + 1, fun budget hb => ?_⟩
    · cases budget with
      | zero => exact .inl (hzero s)
      | succ budget => exact hany budget
    · obtain ⟨k, rfl⟩ : ∃ k, budget = k + 1 := ⟨budget - 1, by omega⟩
      exact hN k (by omega)

/-- One more than a budget is a budget too. -/
theorem shift (h : Approaches m m') : Approaches (fun budget => m (budget + 1)) m' := by
  intro s
  rcases h s with he | ⟨hany, N, hN⟩
  · exact .inl he
  · exact .inr ⟨fun budget => hany (budget + 1), N, fun budget hb => hN (budget + 1) (by omega)⟩

theorem bind {f : Nat → α → Build β} {f' : α → Build β} (h : Approaches m m')
    (hf : ∀ a, Approaches (fun budget => f budget a) (f' a)) :
    Approaches (fun budget => m budget >>= f budget) (m' >>= f') := by
  intro s
  rcases h s with he | ⟨hany, N, hN⟩
  · exact .inl (bind_error he)
  rcases hs : m' s with ⟨e | a, s'⟩
  · have hpass : ∀ budget, m budget s = m' s → (m budget >>= f budget) s = (m' >>= f') s := by
      intro budget hm
      rw [run_bind, run_bind, hm, hs]
    exact .inr ⟨fun budget => (hany budget).imp bind_error (hpass budget),
      N, fun budget hb => hpass budget (hN budget hb)⟩
  · -- A budget that lets the first part finish hands its result on to the second.
    have hpass : ∀ budget, m budget s = m' s → (m budget >>= f budget) s = f budget a s' := by
      intro budget hm
      rw [run_bind, hm, hs]
    have hresult : (m' >>= f') s = f' a s' := by rw [run_bind, hs]
    rw [hresult]
    rcases hf a s' with he | ⟨hany', N', hN'⟩
    · exact .inl he
    · refine .inr ⟨fun budget => ?_, max N N', fun budget hb => ?_⟩
      · rcases hany budget with hm | hm
        · exact .inl (bind_error hm)
        · simpa only [hpass budget hm] using hany' budget
      · simpa only [hpass budget (hN budget (by omega))] using hN' budget (by omega)

theorem ite {c : Prop} [Decidable c] {m₁ : Nat → Build α} {m₁' : Build α}
    (h : Approaches m m') (h₁ : Approaches m₁ m₁') :
    Approaches (fun budget => if c then m budget else m₁ budget) (if c then m' else m₁') := by
  by_cases hc : c
  · simpa only [hc, if_true] using h
  · simpa only [hc, if_false] using h₁

theorem foldlM {f : Nat → β → α → Build β} {f' : β → α → Build β}
    (h : ∀ b a, Approaches (fun budget => f budget b a) (f' b a)) (l : List α) (b : β) :
    Approaches (fun budget => l.foldlM (f budget) b) (l.foldlM f' b) := by
  induction l generalizing b with
  | nil => exact refl _
  | cons a l ih =>
    simp only [List.foldlM_cons]
    exact (h b a).bind ih

end Approaches

end Build

open Build ExactAlgebra.Expr

/-! ## Products and sums within a budget -/

namespace Expr

mutual

/-- The canonical product within a budget: neither a sum of exponents nor a round of merging is
begun on an empty one. -/
def productWithin : Nat → List Expr → List Expr → Build Expr
  | 0, _, _ => throw .exhausted
  | budget + 1, factors, divisors => do
    let d ← ProductDraft.empty.absorbAll (sumWithin budget) factors divisors
    (← d.flatten (sumWithin budget) budget).collapse

/-- The canonical sum within a budget: neither a product of a single term nor a round of merging is
begun on an empty one. -/
def sumWithin : Nat → SignedTerms → Build Expr
  | 0, _ => throw .exhausted
  | budget + 1, terms => do
    let d ← SumDraft.empty.absorbAll terms
    (← d.flatten budget).collapse fun factors => productWithin budget factors []

end

end Expr

namespace ProductDraft

variable {sums : Nat → SignedTerms → Build Expr} {sum : SignedTerms → Build Expr}

/-- The budgeted sums of exponents approach the sums that the draft is given. -/
def SumsApproach (sums : Nat → SignedTerms → Build Expr) (sum : SignedTerms → Build Expr) : Prop :=
  ∀ terms, Approaches (fun budget => sums budget terms) (sum terms)

variable (h : SumsApproach sums sum)

include h

theorem addExponents_approaches (a b : Expr) :
    Approaches (fun budget => addExponents (sums budget) a b) (addExponents sum a b) := by
  unfold addExponents
  split
  · exact .refl _
  · exact h _

theorem signedExponent_approaches (e : Expr) (sign : Sign) :
    Approaches (fun budget => signedExponent (sums budget) e sign) (signedExponent sum e sign) := by
  cases sign with
  | plus => exact .refl _
  | minus =>
    cases e with
    | num n => exact .refl _
    | _ => exact h _

theorem enter_approaches (d : ProductDraft) (b e : Expr) :
    Approaches (fun budget => d.enter (sums budget) b e) (d.enter sum b e) := by
  have hpost : Approaches (fun budget => d.exponents.post (rule (sums budget)) b e)
      (d.exponents.post (rule sum) b e) := by
    simp only [Ledger.post, rule]
    exact (addExponents_approaches h _ e).bind fun _ => .refl _
  exact hpost.bind fun _ => .refl _

theorem enterAll_approaches (d : ProductDraft) (sign : Sign) (factors : List (Expr × Expr)) :
    Approaches (fun budget => d.enterAll (sums budget) sign factors)
      (d.enterAll sum sign factors) := by
  unfold enterAll
  refine Approaches.foldlM (fun d p => ?_) factors d
  exact (signedExponent_approaches h p.2 sign).bind (enter_approaches h d p.1)

theorem absorb_approaches (d : ProductDraft) (factor : Expr) (sign : Sign) :
    Approaches (fun budget => d.absorb (sums budget) factor sign) (d.absorb sum factor sign) := by
  cases factor with
  | num n => exact .refl _
  | var name => exact enter_approaches h d _ _
  | power age b e =>
    exact .ite (enter_approaches h d _ _)
      ((signedExponent_approaches h e sign).bind (enter_approaches h d b))
  | product age c factors =>
    exact (Approaches.refl _).bind fun d => enterAll_approaches h d sign factors
  | sum age c summands => exact enter_approaches h d _ _

theorem absorbAll_approaches (factors divisors : List Expr) (d : ProductDraft) :
    Approaches (fun budget => absorbAll (sums budget) factors divisors d)
      (absorbAll sum factors divisors d) :=
  (Approaches.foldlM (fun d e => absorb_approaches h d e .plus) factors d).bind
    (Approaches.foldlM (fun d e => absorb_approaches h d e .minus) divisors)

theorem unnest_approaches (d : ProductDraft) (b : Expr) :
    Approaches (fun budget => d.unnest (sums budget) b) (d.unnest sum b) := by
  unfold unnest
  split
  · exact (Approaches.refl _).bind fun _ => absorb_approaches h _ b .plus
  · exact .refl _

/-- The loop that counts its rounds is approached by the loop that runs on its budget. -/
theorem flatten_approaches (rounds : Nat) (d : ProductDraft) :
    Approaches (fun budget => d.flatten (sums budget) budget) (d.flatten sum rounds) := by
  induction rounds generalizing d sums with
  | zero => exact .exhausted
  | succ rounds ih =>
    refine .succ (fun s => rfl) ?_
    have hshift : SumsApproach (fun budget => sums (budget + 1)) sum := fun terms => (h terms).shift
    simp only [flatten]
    split
    · exact .refl _
    · exact (Approaches.foldlM (unnest_approaches hshift) _ d).bind (ih hshift)

omit h in
theorem finish_approaches (h : SumsApproach sums sum) (d : ProductDraft) :
    Approaches (fun budget => do (← d.flatten (sums budget) budget).collapse) (d.finish sum) :=
  (flatten_approaches h d.rounds d).bind fun _ => .refl _

end ProductDraft

namespace SumDraft

theorem flatten_approaches (rounds : Nat) (d : SumDraft) :
    Approaches (fun budget => d.flatten budget) (d.flatten rounds) := by
  induction rounds generalizing d with
  | zero => exact .exhausted
  | succ rounds ih =>
    refine .succ (fun s => rfl) ?_
    simp only [flatten]
    split
    · exact .refl _
    · exact (Approaches.refl _).bind ih

theorem collapse_approaches {products : Nat → List Expr → Build Expr}
    {product : List Expr → Build Expr}
    (h : ∀ factors, Approaches (fun budget => products budget factors) (product factors))
    (d : SumDraft) :
    Approaches (fun budget => d.collapse (products budget)) (d.collapse product) := by
  unfold collapse
  split
  · exact .refl _
  · exact .ite (h _) (.refl _)
  · exact .refl _

end SumDraft

namespace Expr

theorem productWithin_approaches {sum : SignedTerms → Build Expr}
    (h : ProductDraft.SumsApproach sumWithin sum) (factors divisors : List Expr) :
    Approaches (fun budget => productWithin budget factors divisors)
      (productWith sum factors divisors) := by
  refine .succ (fun s => rfl) ?_
  simp only [productWithin]
  exact (ProductDraft.absorbAll_approaches h factors divisors _).bind
    (ProductDraft.finish_approaches h)

/-- **The free recursion approaches the one that counts its levels, whatever the level.** -/
theorem sumWithin_approaches (level : Nat) : ProductDraft.SumsApproach sumWithin (sumAt level) := by
  induction level with
  | zero => exact fun _ => .exhausted
  | succ level ih =>
    intro terms
    refine .succ (fun s => rfl) ?_
    simp only [sumWithin]
    refine (Approaches.refl _).bind fun d =>
      (SumDraft.flatten_approaches d.rounds d).bind fun d' => ?_
    exact SumDraft.collapse_approaches (fun factors => productWithin_approaches ih factors []) d'

/-! ## Every construction halts -/

/-- **Every construction halts.**  Products and sums, which call each other and merge in loops, do
so within every large enough budget; the others recurse over the tree and build such products and
sums, none of which is cut short. -/
theorem constructions_halt :
    (∀ factors divisors, Halts (fun budget => productWithin budget factors divisors)
      (ofProduct factors divisors)) ∧
    (∀ terms, Halts (fun budget => sumWithin budget terms) (ofSum terms)) ∧
    ∀ s, (∀ base exponent, (ofPower base exponent s).1 ≠ .error .exhausted) ∧
      (∀ e, (neg e s).1 ≠ .error .exhausted) ∧
      (∀ e bindings, (evaluate e bindings s).1 ≠ .error .exhausted) ∧
      ∀ e, (simplify e s).1 ≠ .error .exhausted := by
  refine ⟨fun factors divisors => ?_, fun terms => ?_, fun s => ⟨?_, ?_, ?_, ?_⟩⟩
  · exact (productWithin_approaches (sumWithin_approaches _) factors divisors).halts
      (ofProduct_finishes factors divisors)
  · exact (sumWithin_approaches _ terms).halts (ofSum_finishes terms)
  · intro base exponent he
    exact ofPower_explained base exponent s _ he
  · intro e he
    exact neg_explained e s _ he
  · intro e bindings he
    exact substitute_explained bindings.value? e s _ he
  · intro e he
    exact simplify_explained e s _ he

end Expr

end ExactAlgebra
