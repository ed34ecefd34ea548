import ExactAlgebra.Expr.Simplify
import ExactAlgebra.Proofs.Equality
import ExactAlgebra.Proofs.Ledger
import Mathlib

/-!
# Products and sums are always finished

The constructions are given a number of rounds and of levels.  Both are more than they need.

A round of merging takes keys out and puts their parts in, so the sizes of all keys together, the
weight of a draft, get smaller with every merge.  A product adds exponents only when one of them is
symbolic, and then the exponents nest less deeply than the powers around them.

* `ProductDraft.flatten_finishes`, `SumDraft.flatten_finishes`: more rounds than the weight suffice.
* `sumAt_finishes`: more levels than the depth of the terms suffice.
* `ofProduct_finishes`, `ofSum_finishes`, `simplify_finishes`: no construction is ever exhausted.
-/

namespace ExactAlgebra

open Build

/-- The construction does not exhaust its steps, and what it returns satisfies `P`. -/
def Build.Finishes {α : Type} (m : Build α) (P : α → Prop) : Prop :=
  m.Ensures P fun e => e ≠ .exhausted

theorem Num.new_finishes (r : Ratio) : Finishes (Num.new r) fun _ => True :=
  Ensures.fresh.bind fun _ _ => .pure trivial

theorem Num.divide_finishes (a b : Num) : Finishes (a.divide b) fun _ => True :=
  (Num.divide_ensures a b fun _ => nofun).imp fun _ _ => trivial

theorem Num.toPower_finishes {P : Expr → Prop} {b e : Num} (hn : ∀ n, P (.num n))
    (hp : ∀ age, P (.power age (.num b) (.num e))) : Finishes (b.toPower e) P := by
  rw [Num.toPower_eq]
  split
  next => exact .pure (hn _)
  next =>
    split
    next =>
      split
      next => exact .pure (hn _)
      next => exact .throw nofun
    next =>
      split
      next => exact (Num.integerPower_ensures b e).bind fun n _ => .pure (hn n)
      next => exact Ensures.fresh.bind fun age _ => .pure (hp age)

namespace Expr

/-! ## The depth of symbolic exponents -/

/-- The exponent is a number, or its own symbolic exponents nest less deeply than `k`. -/
def ExponentBelow (k : Nat) (e : Expr) : Prop := e.isNum = true ∨ e.exponentDepth < k

theorem exponentBelow_iff {k : Nat} {e : Expr} :
    (if e.isNum then 0 else 1 + e.exponentDepth) ≤ k ↔ ExponentBelow k e := by
  rw [ExponentBelow]
  split
  next h => simp [h]
  next h => simp only [h, Bool.false_eq_true, false_or]; omega

theorem exponentDepth_power {k age : Nat} {b e : Expr} :
    (power age b e).exponentDepth ≤ k ↔ b.exponentDepth ≤ k ∧ ExponentBelow k e := by
  rw [exponentDepth, Nat.max_le, exponentBelow_iff]

theorem exponentDepth_product {k age : Nat} {c : Num} {factors : List (Expr × Expr)} :
    (product age c factors).exponentDepth ≤ k ↔
      ∀ p ∈ factors, p.1.exponentDepth ≤ k ∧ ExponentBelow k p.2 := by
  rw [exponentDepth]
  induction factors with
  | nil => simp [factorsExponentDepth]
  | cons p factors ih =>
    rw [factorsExponentDepth, Nat.max_le, Nat.max_le, exponentBelow_iff, ih, List.forall_mem_cons]

theorem exponentDepth_sum {k age : Nat} {c : Num} {summands : List (Expr × Num)} :
    (sum age c summands).exponentDepth ≤ k ↔ ∀ p ∈ summands, p.1.exponentDepth ≤ k := by
  rw [exponentDepth]
  induction summands with
  | nil => simp [summandsExponentDepth]
  | cons p summands ih => rw [summandsExponentDepth, Nat.max_le, ih, List.forall_mem_cons]

theorem exponentDepth_of_num {e : Expr} (h : e.isNum = true) : e.exponentDepth = 0 := by
  cases e with
  | num n => rfl
  | _ => exact nomatch h

theorem ofPower_shallow {k : Nat} {b e : Expr} (hb : b.exponentDepth ≤ k)
    (he : ExponentBelow k e) : Finishes (ofPower b e) fun r => r.exponentDepth ≤ k := by
  have hpower : ∀ age, (power age b e).exponentDepth ≤ k := fun age =>
    exponentDepth_power.mpr ⟨hb, he⟩
  rcases b.num_or with ⟨n, rfl⟩ | hn
  · rcases e.num_or with ⟨m, rfl⟩ | hm
    · exact Num.toPower_finishes (fun _ => Nat.zero_le k) hpower
    · rw [ofPower_num n hm]
      split
      next => exact .pure (Nat.zero_le k)
      next => exact Ensures.fresh.bind fun age _ => .pure (hpower age)
  · rw [ofPower_symbolic hn]
    split
    next => exact .pure (Nat.zero_le k)
    next =>
      split
      next => exact .pure hb
      next => exact Ensures.fresh.bind fun age _ => .pure (hpower age)

theorem separate_shallow {k age : Nat} {c : Num} {factors : List (Expr × Expr)}
    (h : ∀ p ∈ factors, p.1.exponentDepth ≤ k ∧ ExponentBelow k p.2) :
    Finishes (separate age c factors) fun p => p.2.exponentDepth ≤ k := by
  unfold separate
  split
  · obtain ⟨hb, he⟩ := h _ List.mem_cons_self
    exact (ofPower_shallow hb he).bind fun _ hr => .pure hr
  · exact .ite (fun _ => .pure (exponentDepth_product.mpr h)) fun _ =>
      Ensures.fresh.bind fun _ _ => .pure (exponentDepth_product.mpr h)

end Expr

/-! ## The weight of a ledger -/

namespace Ledger

variable {κ ν : Type} [BEq κ] (size : κ → Nat)

/-- The sizes of all keys together. -/
def weight (l : Ledger κ ν) : Nat := (l.keys.map size).sum

theorem weight_erase {l : Ledger κ ν} {key : κ} {amount : ν} (h : l.get? key = some amount)
    (hs : ∀ k, (k == key) = true → size k = size key) :
    (l.erase key).weight size + size key = l.weight size := by
  obtain ⟨k, before, after, hk, he, -, herase⟩ := get?_eq_some h
  simp only [weight, keys, he, herase, List.map_append, List.map_cons, List.sum_append_nat,
    List.sum_cons, hs k hk]
  omega

theorem weight_store_le (vanishes : ν → Bool) (l : Ledger κ ν) (key : κ) (amount : ν) :
    (l.store vanishes key amount).weight size ≤ l.weight size + size key := by
  rw [store]
  cases h : l.get? key with
  | some old =>
    obtain ⟨k, before, after, hk, he, hput, herase⟩ := get?_eq_some h
    split <;>
    · simp only [weight, keys, he, hput, herase, List.map_append, List.map_cons,
        List.sum_append_nat, List.sum_cons]
      omega
  | none =>
    obtain ⟨-, hput, herase⟩ := get?_eq_none h
    split <;>
    · simp only [weight, keys, hput, herase, List.map_append, List.map_cons, List.map_nil,
        List.sum_append_nat, List.sum_cons, List.sum_nil]
      omega

end Ledger

open ExactAlgebra.Expr

/-! ## Products -/

namespace ProductDraft

/-- The symbolic exponents in the entries nest to a depth of at most `k`. -/
def Shallow (k : Nat) (d : ProductDraft) : Prop :=
  d.exponents.All (fun b => b.exponentDepth ≤ k) (ExponentBelow k)

def weight (d : ProductDraft) : Nat := d.exponents.weight Expr.size

theorem Shallow.empty {k : Nat} : ProductDraft.empty.Shallow k := Ledger.All.empty

theorem Shallow.erase {k : Nat} {d : ProductDraft} (h : d.Shallow k) (b : Expr) :
    Shallow k { d with exponents := d.exponents.erase b } := Ledger.All.erase h b

/-- The sum finishes for terms that are shallower than `k` and is no deeper than they are. -/
def SumFinishes (k : Nat) (sum : SignedTerms → Build Expr) : Prop :=
  ∀ j < k, ∀ terms : SignedTerms, (∀ p ∈ terms, p.1.exponentDepth ≤ j) →
    Finishes (sum terms) fun e => e.exponentDepth ≤ j

variable {k : Nat} {sum : SignedTerms → Build Expr} (hsum : SumFinishes k sum) {d : ProductDraft}

include hsum in
theorem addExponents_finishes {a b : Expr} (ha : ExponentBelow k a) (hb : ExponentBelow k b) :
    Finishes (addExponents sum a b) (ExponentBelow k) := by
  unfold addExponents
  split
  · exact (Num.new_finishes _).bind fun _ _ => .pure (.inl rfl)
  next hnum =>
    -- One of the two is symbolic, so there is a depth below `k`, and numbers are no deeper.
    have hk : 0 < k := by
      rcases ha with ha | ha
      · rcases hb with hb | hb
        · obtain ⟨m, rfl⟩ := a.num_or.resolve_right (by simp [ha])
          obtain ⟨n, rfl⟩ := b.num_or.resolve_right (by simp [hb])
          exact absurd rfl (hnum m n rfl)
        · omega
      · omega
    have hdepth : ∀ {e : Expr}, ExponentBelow k e → e.exponentDepth ≤ k - 1 := by
      rintro e (he | he)
      · rw [exponentDepth_of_num he]; exact Nat.zero_le _
      · omega
    refine (hsum (k - 1) (by omega) _ ?_).imp fun e he => .inr (by omega)
    simp only [List.forall_mem_cons]
    exact ⟨hdepth ha, hdepth hb, List.forall_mem_nil _⟩

include hsum in
theorem signedExponent_finishes {e : Expr} (he : ExponentBelow k e) (sign : Sign) :
    Finishes (signedExponent sum e sign) (ExponentBelow k) := by
  cases sign with
  | plus => exact .pure he
  | minus =>
    rcases e.num_or with ⟨n, rfl⟩ | hn
    · exact (Num.new_finishes _).bind fun _ _ => .pure (.inl rfl)
    · have hd : e.exponentDepth < k := he.resolve_left (by simp [hn])
      have hs : Finishes (sum [(e, .minus)]) (ExponentBelow k) :=
        (hsum _ hd _ (by simp)).imp fun _ h => .inr (by omega)
      cases e with
      | num n => exact nomatch hn
      | _ => exact hs

theorem scale_finishes {P : ProductDraft → Prop} (n : Num) (sign : Sign)
    (h : ∀ c, P { d with coefficient := c }) : Finishes (d.scale n sign) P := by
  cases sign with
  | plus => exact (Num.new_finishes _).bind fun c _ => .pure (h c)
  | minus => exact (Num.divide_finishes _ _).bind fun c _ => .pure (h c)

include hsum in
theorem enter_finishes (h : d.Shallow k) {b e : Expr} (hb : b.exponentDepth ≤ k)
    (he : ExponentBelow k e) : Finishes (d.enter sum b e)
      fun d' => d'.Shallow k ∧ d'.weight ≤ d.weight + b.size := by
  have hold : ExponentBelow k ((d.exponents.get? b).getD .zero) := by
    cases hg : d.exponents.get? b with
    | some old => exact h.get? hg
    | none => exact .inl rfl
  have hpost : Finishes (d.exponents.post (rule sum) b e) fun l =>
      l.All (fun b => b.exponentDepth ≤ k) (ExponentBelow k) ∧
        l.weight Expr.size ≤ d.weight + b.size :=
    (addExponents_finishes hsum hold he).bind fun x hx =>
      .pure ⟨h.store hb fun _ => hx, Ledger.weight_store_le _ _ _ _ _⟩
  exact hpost.bind fun l hl => .pure hl

include hsum in
theorem enterAll_finishes (h : d.Shallow k) {factors : List (Expr × Expr)}
    (hf : ∀ p ∈ factors, p.1.exponentDepth ≤ k ∧ ExponentBelow k p.2) (sign : Sign) :
    Finishes (d.enterAll sum sign factors)
      fun d' => d'.Shallow k ∧ d'.weight ≤ d.weight + factorsSize factors := by
  induction factors generalizing d with
  | nil => exact .pure ⟨h, Nat.le_refl _⟩
  | cons p factors ih =>
    obtain ⟨b, e⟩ := p
    rw [List.forall_mem_cons] at hf
    rw [enterAll, List.foldlM_cons]
    refine ((signedExponent_finishes hsum hf.1.2 sign).bind fun x hx =>
      enter_finishes hsum h hf.1.1 hx).bind fun d' hd => (ih hd.1 hf.2).imp fun d'' hd' => ?_
    refine ⟨hd'.1, ?_⟩
    have h₁ : d'.weight ≤ d.weight + b.size := hd.2
    have h₂ := hd'.2
    rw [factorsSize]
    omega

include hsum in
/-- A product that is absorbed weighs less than it did as a base. -/
theorem absorb_finishes (h : d.Shallow k) {factor : Expr} (hf : factor.exponentDepth ≤ k)
    (sign : Sign) : Finishes (d.absorb sum factor sign) fun d' => d'.Shallow k ∧
      (factor.isProduct = true → d'.weight < d.weight + factor.size) := by
  have hself : Finishes (d.enter sum factor (.num sign.toNum)) fun d' => d'.Shallow k ∧ _ :=
    enter_finishes hsum h hf (.inl rfl)
  have hother {p : Prop} (hp : false = true) : p := absurd hp Bool.false_ne_true
  cases factor with
  | num n => exact scale_finishes n sign fun c => ⟨h, hother⟩
  | var name => exact hself.imp fun _ hd => ⟨hd.1, hother⟩
  | power age b e =>
    obtain ⟨hb, he⟩ := exponentDepth_power.mp hf
    exact .ite (fun _ => hself.imp fun _ hd => ⟨hd.1, hother⟩) fun _ =>
      (signedExponent_finishes hsum he sign).bind fun _ hx =>
        (enter_finishes hsum h hb hx).imp fun _ hd => ⟨hd.1, hother⟩
  | product age c factors =>
    refine (scale_finishes (P := fun d' => d'.Shallow k ∧ d'.weight = d.weight) c sign
      fun _ => ⟨h, rfl⟩).bind fun d' hd => ?_
    refine (enterAll_finishes hsum hd.1 (exponentDepth_product.mp hf) sign).imp fun d'' hd' => ?_
    refine ⟨hd'.1, fun _ => ?_⟩
    have := hd'.2
    rw [hd.2] at this
    rw [Expr.size]
    omega
  | sum age c summands => exact hself.imp fun _ hd => ⟨hd.1, hother⟩

include hsum in
theorem unnest_finishes (h : d.Shallow k) {b : Expr} (hb : b.exponentDepth ≤ k)
    (hp : b.isProduct = true) :
    Finishes (d.unnest sum b) fun d' => d'.Shallow k ∧ d'.weight < d.weight := by
  unfold unnest
  split
  next e he =>
    refine (Ensures.observe _).bind fun _ _ =>
      (absorb_finishes hsum (h.erase b) hb .plus).imp fun d' hd => ⟨hd.1, ?_⟩
    have h₁ : d'.weight < (d.exponents.erase b).weight Expr.size + b.size := hd.2 hp
    rwa [Ledger.weight_erase Expr.size he fun _ => size_congr] at h₁
  next => exact (Ensures.observe _).bind fun _ _ => .throw nofun

include hsum in
theorem unnestAll_finishes {bases : List Expr}
    (hb : ∀ b ∈ bases, b.exponentDepth ≤ k ∧ b.isProduct = true) (h : d.Shallow k) :
    Finishes (bases.foldlM (unnest sum) d)
      fun d' => d'.Shallow k ∧ d'.weight + bases.length ≤ d.weight := by
  induction bases generalizing d with
  | nil => exact .pure ⟨h, Nat.le_refl _⟩
  | cons b bases ih =>
    rw [List.forall_mem_cons] at hb
    rw [List.foldlM_cons]
    refine (unnest_finishes hsum h hb.1.1 hb.1.2).bind fun d' hd =>
      (ih hb.2 hd.1).imp fun d'' hd' => ⟨hd'.1, ?_⟩
    have h₁ := hd.2
    have h₂ := hd'.2
    rw [List.length_cons]
    omega

include hsum in
theorem flatten_finishes (rounds : Nat) (h : d.Shallow k) (hw : d.weight < rounds) :
    Finishes (d.flatten sum rounds) (Shallow k) := by
  induction rounds generalizing d with
  | zero => exact absurd hw (Nat.not_lt_zero _)
  | succ rounds ih =>
    rw [flatten]
    split
    next => exact .pure h
    next hne =>
      refine (unnestAll_finishes hsum (fun b hb => ?_) h).bind fun d' hd => ih hd.1 ?_
      · obtain ⟨e, he, hp, -⟩ := mem_nested hb
        exact ⟨(h _ he).1, hp⟩
      · have h₁ := hd.2
        have h₂ : 0 < d.nested.length := List.length_pos_iff.mpr hne
        omega

theorem collapse_finishes (h : d.Shallow k) :
    Finishes d.collapse fun e => e.exponentDepth ≤ k := by
  refine .ite (fun _ => .pure (Nat.zero_le k)) fun _ => ?_
  split
  · exact .pure (Nat.zero_le k)
  next b e hd =>
    obtain ⟨hb, he⟩ := h (b, e) (by rw [hd]; exact List.mem_cons_self)
    exact .ite (fun _ => ofPower_shallow hb he) fun _ => Ensures.fresh.bind fun _ _ =>
      .pure (exponentDepth_product.mpr (by simpa using ⟨hb, he⟩))
  · exact Ensures.fresh.bind fun _ _ => .pure (exponentDepth_product.mpr fun p hp =>
      h p ((Ledger.sorted_perm _ _).mem_iff.mp hp))

end ProductDraft

theorem Expr.productWith_finishes {k : Nat} {sum : SignedTerms → Build Expr}
    (hsum : ProductDraft.SumFinishes k sum) {factors divisors : List Expr}
    (hf : ∀ e ∈ factors, e.exponentDepth ≤ k) (hd : ∀ e ∈ divisors, e.exponentDepth ≤ k) :
    Finishes (productWith sum factors divisors) fun e => e.exponentDepth ≤ k := by
  have hfold : ∀ (sign : Sign) {l : List Expr}, (∀ e ∈ l, e.exponentDepth ≤ k) →
      ∀ {d : ProductDraft}, d.Shallow k →
        Finishes (l.foldlM (fun d e => d.absorb sum e sign) d) (ProductDraft.Shallow k) := by
    intro sign l hl d h
    refine Ensures.foldlM (fun e he d' hd' => ?_) h
    exact (ProductDraft.absorb_finishes hsum hd' (hl e he) sign).imp fun _ h => h.1
  have habsorb : Finishes (ProductDraft.empty.absorbAll sum factors divisors)
      (ProductDraft.Shallow k) :=
    (hfold .plus hf ProductDraft.Shallow.empty).bind fun d h => hfold .minus hd h
  refine habsorb.bind fun d h => ?_
  refine (ProductDraft.flatten_finishes hsum _ h (Nat.lt_succ_self _)).bind fun d' h' => ?_
  exact ProductDraft.collapse_finishes h'

/-! ## Sums -/

namespace SumDraft

def Shallow (k : Nat) (d : SumDraft) : Prop :=
  d.coefficients.All (fun t => t.exponentDepth ≤ k) fun _ => True

def weight (d : SumDraft) : Nat := d.coefficients.weight Expr.size

variable {k : Nat} {d : SumDraft}

theorem Shallow.empty : SumDraft.empty.Shallow k := Ledger.All.empty

theorem Shallow.erase (h : d.Shallow k) (t : Expr) :
    Shallow k { d with coefficients := d.coefficients.erase t } := Ledger.All.erase h t

theorem shift_finishes (h : d.Shallow k) (n scale : Num) :
    Finishes (d.shift n scale) fun d' => d'.Shallow k ∧ d'.weight = d.weight :=
  (Num.new_finishes _).bind fun _ _ => (Num.new_finishes _).bind fun _ _ => .pure ⟨h, rfl⟩

theorem enter_finishes (h : d.Shallow k) {t : Expr} (ht : t.exponentDepth ≤ k) (c : Num) :
    Finishes (d.enter t c) fun d' => d'.Shallow k ∧ d'.weight ≤ d.weight + t.size := by
  have hpost : Finishes (d.coefficients.post rule t c) fun l =>
      l.All (fun t => t.exponentDepth ≤ k) (fun _ => True) ∧
        l.weight Expr.size ≤ d.weight + t.size :=
    (Num.new_finishes _).bind fun x _ =>
      .pure ⟨h.store ht fun _ => trivial, Ledger.weight_store_le _ _ _ _ _⟩
  exact hpost.bind fun l hl => .pure hl

theorem enterAll_finishes (h : d.Shallow k) {summands : List (Expr × Num)}
    (ht : ∀ p ∈ summands, p.1.exponentDepth ≤ k) (scale : Num) :
    Finishes (summands.foldlM (fun d (term, coefficient) => do
      d.enter term (← coefficient.multiply scale)) d)
      fun d' => d'.Shallow k ∧ d'.weight ≤ d.weight + summandsSize summands := by
  induction summands generalizing d with
  | nil => exact .pure ⟨h, Nat.le_refl _⟩
  | cons p summands ih =>
    obtain ⟨t, c⟩ := p
    rw [List.forall_mem_cons] at ht
    rw [List.foldlM_cons]
    refine ((Num.new_finishes _).bind fun x _ => enter_finishes h ht.1 x).bind fun d' hd =>
      (ih hd.1 ht.2).imp fun d'' hd' => ⟨hd'.1, ?_⟩
    have h₁ : d'.weight ≤ d.weight + t.size := hd.2
    have h₂ := hd'.2
    rw [summandsSize]
    omega

/-- A sum that is absorbed weighs less than it did as a term. -/
theorem absorb_finishes (h : d.Shallow k) {t : Expr} (ht : t.exponentDepth ≤ k) (scale : Num) :
    Finishes (d.absorb t scale) fun d' => d'.Shallow k ∧
      (t.isSum = true → d'.weight < d.weight + t.size) := by
  have hself : Finishes (d.enter t scale) fun d' => d'.Shallow k ∧ _ := enter_finishes h ht scale
  cases t with
  | num n => exact (shift_finishes h n scale).imp fun _ hd => ⟨hd.1, nofun⟩
  | var name => exact hself.imp fun _ hd => ⟨hd.1, nofun⟩
  | power age b e => exact hself.imp fun _ hd => ⟨hd.1, nofun⟩
  | product age c factors =>
    exact (separate_shallow (exponentDepth_product.mp ht)).bind fun p hp =>
      (Num.new_finishes _).bind fun x _ =>
        (enter_finishes h hp x).imp fun _ hd => ⟨hd.1, nofun⟩
  | sum age c summands =>
    refine (shift_finishes h c scale).bind fun d' hd => ?_
    have henter := enterAll_finishes hd.1 (exponentDepth_sum.mp ht) scale
    refine henter.imp fun d'' hd' => ⟨hd'.1, fun _ => ?_⟩
    have hle := hd'.2
    rw [hd.2] at hle
    rw [Expr.size]
    omega

theorem unnest_finishes (h : d.Shallow k) {t : Expr} (ht : t.exponentDepth ≤ k)
    (hp : t.isSum = true) :
    Finishes (d.unnest t) fun d' => d'.Shallow k ∧ d'.weight < d.weight := by
  unfold unnest
  split
  next c hc =>
    refine (Ensures.observe _).bind fun _ _ =>
      (absorb_finishes (h.erase t) ht .one).imp fun d' hd => ⟨hd.1, ?_⟩
    have h₁ : d'.weight < (d.coefficients.erase t).weight Expr.size + t.size := hd.2 hp
    rwa [Ledger.weight_erase Expr.size hc fun _ => size_congr] at h₁
  next => exact (Ensures.observe _).bind fun _ _ => .throw nofun

theorem unnestAll_finishes {terms : List Expr}
    (ht : ∀ t ∈ terms, t.exponentDepth ≤ k ∧ t.isSum = true) (h : d.Shallow k) :
    Finishes (terms.foldlM unnest d)
      fun d' => d'.Shallow k ∧ d'.weight + terms.length ≤ d.weight := by
  induction terms generalizing d with
  | nil => exact .pure ⟨h, Nat.le_refl _⟩
  | cons t terms ih =>
    rw [List.forall_mem_cons] at ht
    rw [List.foldlM_cons]
    refine (unnest_finishes h ht.1.1 ht.1.2).bind fun d' hd =>
      (ih ht.2 hd.1).imp fun d'' hd' => ⟨hd'.1, ?_⟩
    have h₁ := hd.2
    have h₂ := hd'.2
    rw [List.length_cons]
    omega

theorem flatten_finishes (rounds : Nat) (h : d.Shallow k) (hw : d.weight < rounds) :
    Finishes (d.flatten rounds) (Shallow k) := by
  induction rounds generalizing d with
  | zero => exact absurd hw (Nat.not_lt_zero _)
  | succ rounds ih =>
    rw [flatten]
    split
    next => exact .pure h
    next hne =>
      refine (unnestAll_finishes (fun t ht => ?_) h).bind fun d' hd => ih hd.1 ?_
      · obtain ⟨c, hc, hp, -⟩ := mem_nested ht
        exact ⟨(h _ hc).1, hp⟩
      · have h₁ := hd.2
        have h₂ : 0 < d.nested.length := List.length_pos_iff.mpr hne
        omega

theorem collapse_finishes {product : List Expr → Build Expr}
    (hproduct : ∀ factors : List Expr, (∀ e ∈ factors, e.exponentDepth ≤ k) →
      Finishes (product factors) fun e => e.exponentDepth ≤ k) (h : d.Shallow k) :
    Finishes (d.collapse product) fun e => e.exponentDepth ≤ k := by
  unfold collapse
  split
  · exact .pure (Nat.zero_le k)
  next t c hd =>
    have ht := (h (t, c) (by rw [hd]; exact List.mem_cons_self)).1
    exact .ite (fun _ => hproduct _ (by simpa [exponentDepth] using ht)) fun _ =>
      Ensures.fresh.bind fun _ _ => .pure (exponentDepth_sum.mpr (by simpa using ht))
  · exact Ensures.fresh.bind fun _ _ => .pure (exponentDepth_sum.mpr fun p hp =>
      (h p ((Ledger.sorted_perm _ _).mem_iff.mp hp)).1)

end SumDraft

/-! ## All levels -/

namespace Expr

theorem sumWith_finishes {k : Nat} {product : List Expr → Build Expr}
    (hproduct : ∀ factors : List Expr, (∀ e ∈ factors, e.exponentDepth ≤ k) →
      Finishes (product factors) fun e => e.exponentDepth ≤ k) {terms : SignedTerms}
    (ht : ∀ p ∈ terms, p.1.exponentDepth ≤ k) :
    Finishes (sumWith product terms) fun e => e.exponentDepth ≤ k := by
  have habsorb : Finishes (SumDraft.empty.absorbAll terms) (SumDraft.Shallow k) :=
    Ensures.foldlM (fun p hp _ h => (SumDraft.absorb_finishes h (ht p hp) _).imp fun _ h => h.1)
      SumDraft.Shallow.empty
  exact habsorb.bind fun _ h => (SumDraft.flatten_finishes _ h (Nat.lt_succ_self _)).bind
    fun _ h => SumDraft.collapse_finishes hproduct h

/-- More levels than the depth of the terms suffice. -/
theorem sumAt_finishes (level : Nat) : ProductDraft.SumFinishes level (sumAt level) := by
  induction level with
  | zero => exact fun j hj => absurd hj (Nat.not_lt_zero j)
  | succ level ih =>
    intro j hj terms ht
    have hsum : ProductDraft.SumFinishes j (sumAt level) :=
      fun i hi => ih i (Nat.lt_of_lt_of_le hi (Nat.le_of_lt_succ hj))
    exact sumWith_finishes
      (fun _ hf => productWith_finishes hsum hf (List.forall_mem_nil _)) ht

theorem exponentDepth_le_depthOf {operands : List Expr} {e : Expr} (h : e ∈ operands) :
    e.exponentDepth ≤ depthOf operands := by
  rw [depthOf]
  induction operands with
  | nil => exact nomatch h
  | cons d operands ih =>
    rw [List.map_cons, List.foldr_cons]
    rcases List.mem_cons.mp h with rfl | h
    · exact Nat.le_max_left _ _
    · exact Nat.le_trans (ih h) (Nat.le_max_right _ _)

/-- **No sum is ever exhausted.** -/
theorem ofSum_finishes (terms : SignedTerms) : Finishes (ofSum terms) fun _ => True :=
  (sumAt_finishes _ _ (Nat.lt_succ_self _) terms fun _ hp =>
    exponentDepth_le_depthOf (List.mem_map_of_mem hp)).imp fun _ _ => trivial

/-- **No product is ever exhausted.** -/
theorem ofProduct_finishes (factors divisors : List Expr) :
    Finishes (ofProduct factors divisors) fun _ => True :=
  (productWith_finishes (sumAt_finishes _)
    (fun _ h => exponentDepth_le_depthOf (List.mem_append_left _ h))
    (fun _ h => exponentDepth_le_depthOf (List.mem_append_right _ h))).imp fun _ _ => trivial

theorem ofPower_finishes (b e : Expr) : Finishes (ofPower b e) fun _ => True :=
  (ofPower_shallow (Nat.le_max_left b.exponentDepth (e.exponentDepth + 1))
    (.inr (Nat.lt_of_lt_of_le (Nat.lt_succ_self _) (Nat.le_max_right _ _)))).imp
      fun _ _ => trivial

/-! ## Simplification -/

theorem distributeCoefficient_finishes (c : Num) (exponent : Expr) :
    Finishes (distributeCoefficient c exponent) fun _ => True :=
  .ite (fun _ => .pure trivial) fun _ => (ofProduct_finishes _ _).bind fun _ _ =>
    (ofPower_finishes _ _).bind fun _ _ => .pure trivial

theorem distributeAll_finishes {factors : List (Expr × Expr)} (exponent : Expr)
    (ih : ∀ p ∈ factors, ∀ x, Finishes (distribute p.1 x) fun _ => True) :
    Finishes (distributeAll factors exponent) fun _ => True := by
  induction factors with
  | nil => exact .pure trivial
  | cons p factors ihl =>
    rw [List.forall_mem_cons] at ih
    exact (ofProduct_finishes _ _).bind fun _ _ => (ih.1 _).bind fun _ _ =>
      (ihl ih.2).bind fun _ _ => .pure trivial

theorem distribute_finishes (base exponent : Expr) :
    Finishes (distribute base exponent) fun _ => True := by
  induction base generalizing exponent with
  | num n => rw [distribute]; exact ofPower_finishes _ _
  | var name => rw [distribute]; exact ofPower_finishes _ _
  | power age b e ih _ =>
    rw [distribute]
    exact (ofProduct_finishes _ _).bind fun _ _ => ih _
  | product age c factors ih =>
    rw [distribute]
    exact (distributeCoefficient_finishes c exponent).bind fun _ _ =>
      (distributeAll_finishes exponent fun p hp x => (ih p hp).1 x).bind fun _ _ =>
        ofProduct_finishes _ _
  | sum age c summands => rw [distribute]; exact ofPower_finishes _ _

theorem simplifyFactors_finishes {factors : List (Expr × Expr)}
    (ih : ∀ p ∈ factors, (Finishes p.1.simplify fun _ => True) ∧
      Finishes p.2.simplify fun _ => True) :
    Finishes (simplifyFactors factors) fun _ => True := by
  induction factors with
  | nil => exact .pure trivial
  | cons p factors ihl =>
    rw [List.forall_mem_cons] at ih
    exact ih.1.1.bind fun _ _ => ih.1.2.bind fun _ _ => (distribute_finishes _ _).bind fun _ _ =>
      (ihl ih.2).bind fun _ _ => .pure trivial

theorem simplifySummands_finishes {summands : List (Expr × Num)}
    (ih : ∀ p ∈ summands, Finishes p.1.simplify fun _ => True) :
    Finishes (simplifySummands summands) fun _ => True := by
  induction summands with
  | nil => exact .pure trivial
  | cons p summands ihl =>
    rw [List.forall_mem_cons] at ih
    exact ih.1.bind fun _ _ => (ofProduct_finishes _ _).bind fun _ _ =>
      (ihl ih.2).bind fun _ _ => .pure trivial

/-- **No simplification is ever exhausted.** -/
theorem simplify_finishes (e : Expr) : Finishes e.simplify fun _ => True := by
  induction e with
  | num n => exact .pure trivial
  | var name => exact .pure trivial
  | power age b e hb he =>
    rw [simplify]
    exact hb.bind fun _ _ => he.bind fun _ _ => distribute_finishes _ _
  | product age c factors ih =>
    rw [simplify]
    exact (simplifyFactors_finishes ih).bind fun _ _ => ofProduct_finishes _ _
  | sum age c summands ih =>
    rw [simplify]
    exact (simplifySummands_finishes ih).bind fun _ _ => ofSum_finishes _

end Expr

end ExactAlgebra
