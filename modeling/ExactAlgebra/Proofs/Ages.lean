import ExactAlgebra.Expr.Print
import ExactAlgebra.Proofs.Canonical.Parts
import ExactAlgebra.Proofs.Order
import ExactAlgebra.Proofs.Printed.Height
import Mathlib.Data.List.Forall2

/-!
# Ages in two runs

Ages are compared and never shown.  So if the nodes of two expressions correspond, and of two nodes
in the one the older corresponds to the older in the other, then no operation can tell which of them
it has been given.  This module says what corresponds, and the others of this directory that it
stays so.

* `Pairing`: which age of one run corresponds to which age of another.
* `Expr.Alike`: two expressions are the same but for their ages, and these correspond.
* `Expr.ageless`: an expression without its ages.  `Alike.ageless_eq`: alike expressions are the
  same without them, so that they are equal, equally high, and printed alike.
* `Alike.compareBy_eq`: alike expressions are in the same order.
-/

namespace ExactAlgebra

/-! ## Pairings -/

/-- The ages of two runs that correspond, in the same order in both.  The constants are the same in
all runs.  Unless the ages of numbers count, nothing is said of them. -/
structure Pairing where
  pairs : Nat → Nat → Prop
  lt_iff {a a' b b' : Nat} : pairs a a' → pairs b b' → (a < b ↔ a' < b')
  constant {i : Nat} : i < Num.constants → pairs i i
  countsNumbers : Bool

namespace Pairing

/-- A later pairing keeps all pairs. -/
instance : Preorder Pairing where
  le W V := V.countsNumbers = W.countsNumbers ∧ ∀ a a', W.pairs a a' → V.pairs a a'
  le_refl _ := ⟨rfl, fun _ _ => id⟩
  le_trans _ _ _ h h' := ⟨h'.1.trans h.1, fun a a' ha => h'.2 a a' (h.2 a a' ha)⟩

variable {W V : Pairing}

/-- The pairing of all ages below a bound with themselves. -/
def upTo (countsNumbers : Bool) (n : Nat) (h : Num.constants ≤ n) : Pairing where
  pairs a a' := a = a' ∧ a < n
  lt_iff h h' := by rw [h.1, h'.1]
  constant hi := ⟨rfl, hi.trans_le h⟩
  countsNumbers := countsNumbers

/-- The pairing of nothing but the constants. -/
def constants (countsNumbers : Bool) : Pairing := upTo countsNumbers Num.constants le_rfl

/-- The pairing with one pair more, of ages above all others. -/
def insert (W : Pairing) (n n' : Nat) (h : ∀ a a', W.pairs a a' → a < n ∧ a' < n') : Pairing where
  pairs a a' := W.pairs a a' ∨ a = n ∧ a' = n'
  lt_iff := by
    rintro a a' b b' (ha | ⟨rfl, rfl⟩) (hb | ⟨rfl, rfl⟩)
    · exact W.lt_iff ha hb
    · exact iff_of_true (h _ _ ha).1 (h _ _ ha).2
    · exact iff_of_false (h _ _ hb).1.not_gt (h _ _ hb).2.not_gt
    · exact iff_of_false (lt_irrefl _) (lt_irrefl _)
  constant hi := .inl (W.constant hi)
  countsNumbers := W.countsNumbers

theorem le_insert {n n' : Nat} {h : ∀ a a', W.pairs a a' → a < n ∧ a' < n'} :
    W ≤ W.insert n n' h := ⟨rfl, fun _ _ => .inl⟩

end Pairing

/-! ## Numbers -/

def Num.ageless (n : Num) : Num := ⟨n.toRatio, 0⟩

@[simp] theorem Num.value_ageless (n : Num) : n.ageless.value = n.value := rfl

@[simp] theorem Num.isZero_ageless (n : Num) : n.ageless.isZero = n.isZero := rfl

/-- Two numbers of one value, whose ages correspond as far as they count. -/
def Num.Alike (W : Pairing) (n n' : Num) : Prop :=
  n.value = n'.value ∧ (W.countsNumbers = true → W.pairs n.age n'.age)

theorem Num.Alike.ageless_eq {W : Pairing} {n n' : Num} (h : n.Alike W n') :
    n.ageless = n'.ageless := by rw [ageless, ageless, toRatio_eq h.1]

theorem Num.Alike.mono {W V : Pairing} {n n' : Num} (hV : W ≤ V) (h : n.Alike W n') :
    n.Alike V n' := ⟨h.1, fun hc => hV.2 _ _ (h.2 (hV.1 ▸ hc))⟩

/-! ## Alike expressions -/

namespace Expr

mutual

/-- Two expressions are the same but for their ages, which correspond. -/
inductive Alike (W : Pairing) : Expr → Expr → Prop
  | num {n n' : Num} : n.Alike W n' → Alike W (.num n) (.num n')
  | var (name : String) : Alike W (.var name) (.var name)
  | power {age age' : Nat} {b b' e e' : Expr} : W.pairs age age' → Alike W b b' → Alike W e e' →
    Alike W (.power age b e) (.power age' b' e')
  | product {age age' : Nat} {c c' : Num} {factors factors' : List (Expr × Expr)} :
    W.pairs age age' → c.Alike W c' → List.Forall₂ (AlikeFactor W) factors factors' →
    Alike W (.product age c factors) (.product age' c' factors')
  | sum {age age' : Nat} {c c' : Num} {summands summands' : List (Expr × Num)} :
    W.pairs age age' → c.Alike W c' → List.Forall₂ (AlikeSummand W) summands summands' →
    Alike W (.sum age c summands) (.sum age' c' summands')

/-- The same for entries of products, whose bases are no numbers and whose exponents are not
zero. -/
inductive AlikeFactor (W : Pairing) : Expr × Expr → Expr × Expr → Prop
  | mk {b b' e e' : Expr} : b.isNum = false → e.isZero = false → Alike W b b' → Alike W e e' →
    AlikeFactor W (b, e) (b', e')

inductive AlikeSummand (W : Pairing) : Expr × Num → Expr × Num → Prop
  | mk {t t' : Expr} {c c' : Num} : t.isNum = false → Alike W t t' → c.Alike W c' →
    AlikeSummand W (t, c) (t', c')

end

def AlikeKey (W : Pairing) (k k' : Expr) : Prop := k.isNum = false ∧ Alike W k k'

def AlikeExponent (W : Pairing) (e e' : Expr) : Prop := e.isZero = false ∧ Alike W e e'

variable {W V : Pairing}

theorem alikeFactor_iff {p p' : Expr × Expr} :
    AlikeFactor W p p' ↔ AlikeKey W p.1 p'.1 ∧ AlikeExponent W p.2 p'.2 := by
  constructor
  · rintro ⟨hn, hz, hb, he⟩
    exact ⟨⟨hn, hb⟩, hz, he⟩
  · exact fun h => .mk h.1.1 h.2.1 h.1.2 h.2.2

theorem alikeSummand_iff {p p' : Expr × Num} :
    AlikeSummand W p p' ↔ AlikeKey W p.1 p'.1 ∧ p.2.Alike W p'.2 := by
  constructor
  · rintro ⟨hn, ht, hc⟩
    exact ⟨⟨hn, ht⟩, hc⟩
  · exact fun h => .mk h.1.1 h.1.2 h.2

/-- A relation on the elements of the first list turns into another one. -/
theorem forall₂_imp {α β : Type} {R S : α → β → Prop} {l : List α} {l' : List β}
    (h : ∀ a ∈ l, ∀ b, R a b → S a b) (hl : List.Forall₂ R l l') : List.Forall₂ S l l' :=
  ((List.forall₂_and_left l l').mpr ⟨h, hl⟩).imp fun _ _ h => h.1 _ h.2

theorem Alike.mono {e e' : Expr} (hV : W ≤ V) (h : Alike W e e') : Alike V e e' := by
  induction e generalizing e' with
  | num n => cases h with | num h => exact .num (h.mono hV)
  | var name => cases h; exact .var name
  | power age b e ihb ihe =>
    cases h with
    | power ha hb he => exact .power (hV.2 _ _ ha) (ihb hb) (ihe he)
  | product age c factors ih =>
    cases h with
    | product ha hc hf =>
      refine .product (hV.2 _ _ ha) (hc.mono hV) (forall₂_imp (fun p hp p' h => ?_) hf)
      obtain ⟨hn, hz, hb, he⟩ := h
      exact .mk hn hz ((ih _ hp).1 hb) ((ih _ hp).2 he)
  | sum age c summands ih =>
    cases h with
    | sum ha hc hs =>
      refine .sum (hV.2 _ _ ha) (hc.mono hV) (forall₂_imp (fun p hp p' h => ?_) hs)
      obtain ⟨hn, ht, hc⟩ := h
      exact .mk hn (ih _ hp ht) (hc.mono hV)

/-! ## What shows no ages -/

mutual

def ageless : Expr → Expr
  | .num n => .num n.ageless
  | .var name => .var name
  | .power _ b e => .power 0 b.ageless e.ageless
  | .product _ c factors => .product 0 c.ageless (factorsAgeless factors)
  | .sum _ c summands => .sum 0 c.ageless (summandsAgeless summands)

def factorsAgeless : List (Expr × Expr) → List (Expr × Expr)
  | [] => []
  | (b, e) :: factors => (b.ageless, e.ageless) :: factorsAgeless factors

def summandsAgeless : List (Expr × Num) → List (Expr × Num)
  | [] => []
  | (t, c) :: summands => (t.ageless, c.ageless) :: summandsAgeless summands

end

/-- Alike expressions are the same without their ages. -/
theorem Alike.ageless_eq {e e' : Expr} (h : Alike W e e') : e.ageless = e'.ageless := by
  induction e generalizing e' with
  | num n => cases h with | num h => rw [ageless, ageless, h.ageless_eq]
  | var name => cases h; rfl
  | power age b e ihb ihe =>
    cases h with
    | power ha hb he => rw [ageless, ageless, ihb hb, ihe he]
  | product age c factors ih =>
    cases h with
    | product ha hc hf =>
      rw [ageless, ageless, hc.ageless_eq]
      congr 1
      induction hf with
      | nil => rfl
      | cons hp _ ihf =>
        rw [List.forall_mem_cons] at ih
        obtain ⟨-, -, hb, he⟩ := hp
        rw [factorsAgeless, factorsAgeless, ih.1.1 hb, ih.1.2 he, ihf ih.2]
  | sum age c summands ih =>
    cases h with
    | sum ha hc hs =>
      rw [ageless, ageless, hc.ageless_eq]
      congr 1
      induction hs with
      | nil => rfl
      | cons hp _ ihs =>
        rw [List.forall_mem_cons] at ih
        obtain ⟨-, ht, hc⟩ := hp
        rw [summandsAgeless, summandsAgeless, ih.1 ht, hc.ageless_eq, ihs ih.2]

section Shown

variable (e : Expr)

@[simp] theorem isNum_ageless : e.ageless.isNum = e.isNum := by cases e <;> rfl

@[simp] theorem isOne_ageless : e.ageless.isOne = e.isOne := by cases e <;> rfl

@[simp] theorem isSum_ageless : e.ageless.isSum = e.isSum := by cases e <;> rfl

@[simp] theorem isProduct_ageless : e.ageless.isProduct = e.isProduct := by cases e <;> rfl

@[simp] theorem isBareBase_ageless : e.ageless.isBareBase = e.isBareBase := by cases e <;> rfl

@[simp] theorem isBareExponent_ageless : e.ageless.isBareExponent = e.isBareExponent := by
  cases e <;> rfl

@[simp] theorem kind_ageless : e.ageless.kind = e.kind := by cases e <;> rfl

end Shown

mutual

theorem fingerprint_ageless (e : Expr) : e.ageless.fingerprint = e.fingerprint := by
  cases e <;> simp only [ageless, fingerprint, Num.value_ageless, fingerprint_ageless,
    factorsFingerprint_ageless, summandsFingerprint_ageless]

theorem factorsFingerprint_ageless (factors : List (Expr × Expr)) :
    factorsFingerprint (factorsAgeless factors) = factorsFingerprint factors := by
  match factors with
  | [] => rfl
  | (b, e) :: factors =>
    simp only [factorsAgeless, factorsFingerprint, fingerprint_ageless b, fingerprint_ageless e,
      factorsFingerprint_ageless factors]

theorem summandsFingerprint_ageless (summands : List (Expr × Num)) :
    summandsFingerprint (summandsAgeless summands) = summandsFingerprint summands := by
  match summands with
  | [] => rfl
  | (t, c) :: summands =>
    simp only [summandsAgeless, summandsFingerprint, fingerprint_ageless t,
      Num.value_ageless, summandsFingerprint_ageless summands]

end

mutual

theorem exponentDepth_ageless (e : Expr) : e.ageless.exponentDepth = e.exponentDepth := by
  cases e <;> simp only [ageless, exponentDepth, exponentDepth_ageless, isNum_ageless,
    factorsExponentDepth_ageless, summandsExponentDepth_ageless]

theorem factorsExponentDepth_ageless (factors : List (Expr × Expr)) :
    factorsExponentDepth (factorsAgeless factors) = factorsExponentDepth factors := by
  match factors with
  | [] => rfl
  | (b, e) :: factors =>
    simp only [factorsAgeless, factorsExponentDepth, exponentDepth_ageless b,
      exponentDepth_ageless e, isNum_ageless, factorsExponentDepth_ageless factors]

theorem summandsExponentDepth_ageless (summands : List (Expr × Num)) :
    summandsExponentDepth (summandsAgeless summands) = summandsExponentDepth summands := by
  match summands with
  | [] => rfl
  | (t, c) :: summands =>
    simp only [summandsAgeless, summandsExponentDepth, exponentDepth_ageless t,
      summandsExponentDepth_ageless summands]

end

mutual

theorem markup_ageless (m : Markup) (e : Expr) : e.ageless.markup m = e.markup m := by
  cases e <;> simp only [ageless, markup, powerMarkup, Num.isZero_ageless, Num.value_ageless,
    isOne_ageless, isBareBase_ageless, isBareExponent_ageless, markup_ageless m,
    factorsMarkup_ageless m, summandsMarkup_ageless m]

theorem factorsMarkup_ageless (m : Markup) (before : List Char) (factors : List (Expr × Expr)) :
    factorsMarkup m before (factorsAgeless factors) = factorsMarkup m before factors := by
  match factors with
  | [] => rfl
  | (b, e) :: factors =>
    simp only [factorsAgeless, factorsMarkup, powerMarkup, isOne_ageless, isSum_ageless,
      isProduct_ageless, isBareBase_ageless, isBareExponent_ageless, markup_ageless m b,
      markup_ageless m e, factorsMarkup_ageless m _ factors]

theorem summandsMarkup_ageless (m : Markup) (before : List Char) (summands : List (Expr × Num)) :
    summandsMarkup m before (summandsAgeless summands) = summandsMarkup m before summands := by
  match summands with
  | [] => rfl
  | (t, c) :: summands =>
    simp only [summandsAgeless, summandsMarkup, isSum_ageless, Num.value_ageless,
      markup_ageless m t, summandsMarkup_ageless m _ summands]

end

mutual

theorem functionForm_ageless (e : Expr) : e.ageless.functionForm = e.functionForm := by
  match e with
  | .num n => rfl
  | .var name => rfl
  | .power _ b e =>
    unfold functionForm
    simp only [ageless, functionForm_ageless b, functionForm_ageless e]
  | .product _ c factors =>
    unfold functionForm
    simp only [ageless, factorForms_ageless factors, Num.value_ageless]
  | .sum _ c summands =>
    unfold functionForm
    simp only [ageless, summandForms_ageless summands]
    rfl

theorem factorForms_ageless (factors : List (Expr × Expr)) :
    factorForms (factorsAgeless factors) = factorForms factors := by
  match factors with
  | [] => rfl
  | (b, e) :: factors =>
    simp only [factorsAgeless, factorForms, functionForm_ageless b, functionForm_ageless e,
      factorForms_ageless factors]

theorem summandForms_ageless (summands : List (Expr × Num)) :
    summandForms (summandsAgeless summands) = summandForms summands := by
  match summands with
  | [] => rfl
  | (t, c) :: summands =>
    simp only [summandsAgeless, summandForms, functionForm_ageless t, Num.value_ageless,
      summandForms_ageless summands]

end

/-- **An expression is printed without its ages**, in every style. -/
theorem format_ageless (style : Style) (e : Expr) : e.ageless.format style = e.format style := by
  cases style with
  | markup m => rw [format, format, markup_ageless]
  | function => rw [format, format, functionForm_ageless]

/-- Alike expressions are equal. -/
theorem Alike.beq {e e' : Expr} (h : Alike W e e') : e.beq e' = true := by
  rw [beq_iff, ← fingerprint_ageless, h.ageless_eq, fingerprint_ageless]

theorem Alike.exponentDepth_eq {e e' : Expr} (h : Alike W e e') :
    e.exponentDepth = e'.exponentDepth := by
  rw [← exponentDepth_ageless, h.ageless_eq, exponentDepth_ageless]

theorem Alike.format_eq {e e' : Expr} (h : Alike W e e') (style : Style) :
    e.format style = e'.format style := by
  rw [← format_ageless, h.ageless_eq, format_ageless]

/-- Alike expressions are equal to alike ones. -/
theorem Alike.beq_eq {a a' b b' : Expr} (ha : Alike W a a') (hb : Alike W b b') :
    (a == b) = (a' == b') := by
  have ha := eq_iff.mp ha.beq
  have hb := eq_iff.mp hb.beq
  rw [Bool.eq_iff_iff, eq_iff, eq_iff, ha, hb]

/-! ## Order -/

theorem Alike.age {e e' : Expr} (h : Alike W e e') (hn : W.countsNumbers = true ∨ e.isNum = false) :
    W.pairs e.age e'.age := by
  cases h with
  | num h => exact h.2 (hn.resolve_right nofun)
  | var name => exact W.constant (Nat.zero_lt_succ 4)
  | power ha _ _ => exact ha
  | product ha _ _ => exact ha
  | sum ha _ _ => exact ha

/-- Alike nodes are in the same order, as far as the ages of numbers count if they are numbers. -/
theorem Alike.compareBy_eq {a a' b b' : Expr} {tier : Expr → Nat}
    (htier : ∀ {e e'}, Alike W e e' → tier e = tier e') (ha : Alike W a a') (hb : Alike W b b')
    (hna : W.countsNumbers = true ∨ a.isNum = false)
    (hnb : W.countsNumbers = true ∨ b.isNum = false) :
    compareBy tier a b = compareBy tier a' b' := by
  have hs : seniority a b = seniority a' b' := by
    by_cases hv : ∃ name name', a = .var name ∧ b = .var name'
    · obtain ⟨name, name', rfl, rfl⟩ := hv
      cases ha
      cases hb
      rfl
    · simp only [not_exists] at hv
      have hv' : ∀ name name', ¬ (a' = .var name ∧ b' = .var name') := by
        rintro name name' ⟨rfl, rfl⟩
        cases ha
        cases hb
        exact hv _ _ ⟨rfl, rfl⟩
      rw [seniority_eq hv, seniority_eq hv', ha.beq_eq hb]
      simp only [W.lt_iff (ha.age hna) (hb.age hnb)]
  rw [compareBy, compareBy, htier ha, htier hb, hs]

theorem Alike.baseTier_eq {e e' : Expr} (h : Alike W e e') : e.baseTier = e'.baseTier := by
  cases h <;> rfl

theorem Alike.termTier_eq {e e' : Expr} (h : Alike W e e') : e.termTier = e'.termTier := by
  cases h <;> rfl

/-- Alike keys are in the same order as bases. -/
theorem AlikeKey.compareBases_eq {a a' b b' : Expr} (ha : AlikeKey W a a') (hb : AlikeKey W b b') :
    compareBases a b = compareBases a' b' :=
  ha.2.compareBy_eq Alike.baseTier_eq hb.2 (.inr ha.1) (.inr hb.1)

/-- Alike keys are in the same order as terms. -/
theorem AlikeKey.compareTerms_eq {a a' b b' : Expr} (ha : AlikeKey W a a') (hb : AlikeKey W b b') :
    compareTerms a b = compareTerms a' b' :=
  ha.2.compareBy_eq Alike.termTier_eq hb.2 (.inr ha.1) (.inr hb.1)

end Expr

end ExactAlgebra
