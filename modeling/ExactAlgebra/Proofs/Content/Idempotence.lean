import ExactAlgebra.Proofs.Content.FixedPoint
import ExactAlgebra.Proofs.Hereditary

/-!
# Simplifying again

When an expression has been simplified, no power in it has a product or a symbolic power as its
base: the exponent laws have been applied to all of them, and the constructions bring in no new
ones.  What they do bring in are powers of numbers that are raised again, since equal powers of a
number are counted by a product as one base.  An expression without these is its own simplification.

* `Distributed`: no base is a product or a symbolic power.  `simplify_distributed`: simplification
  leads there.
* `RaisedOnce`: no power of a number is raised again.
* `simplify_copies`: an expression with both properties is its own simplification.
* `simplify_idempotent`: simplifying twice is simplifying once, unless powers of numbers are raised
  again.  `simplify_not_idempotent`: where they are, a second pass goes further.
-/

namespace ExactAlgebra.Expr

open Build

/-! ## Distributed exponents -/

/-- No power in the expression has a product or a symbolic power as its base. -/
def Distributed (e : Expr) : Prop := ∀ p ∈ e.subpowers, p.1.isNum = true ∨ p.1.isBase = true

/-- A base on which the exponent laws have nothing to do. -/
def DistributedBase (b : Expr) : Prop := (b.isNum = true ∨ b.isBase = true) ∧ b.Distributed

theorem hereditary_distributed : Hereditary DistributedBase Distributed where
  num _ := List.forall_mem_nil _
  power age b e := by
    rw [Distributed, subpowers, List.forall_mem_cons, List.forall_mem_append, ← and_assoc]
    refine and_congr_left fun _ => ⟨.inr, fun h => h.elim (fun hn => ⟨.inl hn, ?_⟩) id⟩
    rcases b.num_or with ⟨n, rfl⟩ | hb
    · exact List.forall_mem_nil _
    · rw [hb] at hn
      cases hn
  product age c factors := by
    induction factors with
    | nil => exact iff_of_true (List.forall_mem_nil _) (List.forall_mem_nil _)
    | cons p factors ih =>
      rw [Distributed, subpowers] at ih
      rw [Distributed, subpowers, factorsSubpowers, List.forall_mem_cons, List.forall_mem_append,
        List.forall_mem_append, ih, List.forall_mem_cons, ← and_assoc, ← and_assoc]
      rfl
  sum age c summands := by
    induction summands with
    | nil => exact iff_of_true (List.forall_mem_nil _) (List.forall_mem_nil _)
    | cons p summands ih =>
      rw [Distributed, subpowers] at ih
      rw [Distributed, subpowers, summandsSubpowers, List.forall_mem_append, ih,
        List.forall_mem_cons]
      rfl
  base _ h := h.2
  key _ h hb := ⟨.inr hb, h⟩

/-- **Simplification distributes all exponents.** -/
theorem simplify_distributed (e : Expr) : Keeps Distributed e.simplify :=
  hereditary_distributed.simplify (fun _ => List.forall_mem_nil _) e

/-! ## Powers of numbers -/

def isNumberPower : Expr → Bool
  | .power _ b _ => b.isNum
  | _ => false

/-- No power of a number is raised to an exponent again, other than one. -/
def RaisedOnce (e : Expr) : Prop :=
  ∀ p ∈ e.subpowers, p.1.isNumberPower = true → p.2.isOne = true

/-- The exponent laws have nothing to do on the power of a base. -/
structure SimplePower (b e : Expr) : Prop where
  base : b.isNum = true ∨ b.isBase = true
  exponent : b.isNumberPower = true → e.isOne = true

/-- The exponent laws have nothing to do in the expression. -/
def Simple (e : Expr) : Prop := ∀ p ∈ e.subpowers, SimplePower p.1 p.2

theorem Distributed.simple {e : Expr} (h : e.Distributed) (hr : e.RaisedOnce) : e.Simple :=
  fun p hp => ⟨h p hp, hr p hp⟩

theorem Simple.power {age : Nat} {b e : Expr} (h : (Expr.power age b e).Simple) :
    SimplePower b e ∧ b.Simple ∧ e.Simple := by
  rw [Simple, subpowers, List.forall_mem_cons, List.forall_mem_append] at h
  exact h

theorem Simple.product {age : Nat} {c : Num} {factors : List (Expr × Expr)}
    (h : (Expr.product age c factors).Simple) :
    ∀ p ∈ factors, SimplePower p.1 p.2 ∧ p.1.Simple ∧ p.2.Simple := fun p hp =>
  ⟨h p (mem_factorsSubpowers.mpr ⟨p, hp, .inl rfl⟩),
    fun q hq => h q (mem_factorsSubpowers.mpr ⟨p, hp, .inr (.inl hq)⟩),
    fun q hq => h q (mem_factorsSubpowers.mpr ⟨p, hp, .inr (.inr hq)⟩)⟩

theorem Simple.sum {age : Nat} {c : Num} {summands : List (Expr × Num)}
    (h : (Expr.sum age c summands).Simple) : ∀ p ∈ summands, p.1.Simple := fun p hp q hq =>
  h q (mem_summandsSubpowers.mpr ⟨p, hp, hq⟩)

/-- A base that is no symbolic power has none to be merged. -/
theorem Simple.merged {e : Expr} (h : e.Simple) : e.Merged := by
  induction e with
  | num n => exact .num n
  | var name => exact .var name
  | power age b e ihb ihe => exact .power age (ihb h.power.2.1) (ihe h.power.2.2)
  | product age c factors ih =>
    refine .product age (fun p hp => (ih p hp).1 (h.product p hp).2.1)
      (fun p hp => (ih p hp).2 (h.product p hp).2.2) fun p hp _ => ?_
    obtain ⟨b, e⟩ := p
    have hbase := (h.product _ hp).1.base
    cases b with
    | power age b x =>
      have hn : b.isNum = true := hbase.resolve_left Bool.false_ne_true
      rw [isSymbolicPower, hn]
      rfl
    | _ => rfl
  | sum age c summands ih => exact .sum age fun p hp => ih p hp (h.sum p hp)

/-! ## Simplified expressions -/

theorem isBase_congr {a b : Expr} (h : a.beq b = true) : a.isBase = b.isBase := by
  cases a <;> cases b <;> simp only [beq, Bool.and_eq_true, Bool.false_eq_true] at h <;> try rfl
  rw [isBase, isBase, isNum_congr h.1]

theorem isNumberPower_congr {a b : Expr} (h : a.beq b = true) :
    a.isNumberPower = b.isNumberPower := by
  cases a <;> cases b <;> simp only [beq, Bool.and_eq_true, Bool.false_eq_true] at h <;> try rfl
  rw [isNumberPower, isNumberPower, isNum_congr h.1]

/-- On a number, a variable or a sum the exponent laws have nothing to do. -/
theorem distribute_eq_ofPower {b : Expr} (h : b.isNum = true ∨ b.isBase = true)
    (hp : b.isNumberPower = false) (e : Expr) : distribute b e = ofPower b e := by
  cases b with
  | power age b x =>
    rcases h with h | h
    · cases h
    · rw [isNumberPower, show b.isNum = true from h] at hp
      cases hp
  | product age c factors => rcases h with h | h <;> cases h
  | _ => rfl

/-- A power of a number with the exponent one is left as it is. -/
theorem distribute_one {b u : Expr} (h : b.Stable) (hp : b.isNumberPower = true)
    (hu : u.isOne = true) : Ensures (distribute b u) (Copies b) NoFault := by
  obtain ⟨hc, hm⟩ := h
  cases b with
  | power age k x =>
    rcases k.num_or with ⟨n, rfl⟩ | hk
    · have hx : x.Stable := by
        cases hc with
        | power _ _ hx _ =>
          cases hm with
          | power _ _ hmx => exact ⟨hx, hmx⟩
      exact (ofProduct_one hx hu).bind fun x' hx' =>
        Expr.ofPower_copies hc (.refl (.ofNum n)) hx'
    · rw [isNumberPower, hk] at hp
      cases hp
  | _ => cases hp

/-- The power that is made of the entry of a simplified product is that entry. -/
theorem simplifyPower_entry {b e : Expr} (h : Entry b e) (hs : SimplePower b e)
    (hb : Ensures b.simplify (Copies b) NoFault) (he : Ensures e.simplify (Copies e) NoFault) :
    Ensures (simplifyPower b e) (HasPowers 1 {(b.fingerprint, e.fingerprint)}) NoFault := by
  refine hb.bind fun b' hb' => he.bind fun e' he' => ?_
  cases hp : b.isNumberPower with
  | true =>
    have h1 := hs.exponent hp
    have hstable := hb'.stable h.merged_base
    have hp' : b'.isNumberPower = true := (isNumberPower_congr hb'.2).trans hp
    refine (distribute_one hstable hp' ((isOne_congr he'.2).trans h1)).imp fun r hr => ?_
    have hpowers := hr.hasPowers hstable.merged
    have hb1 : b'.scale = 1 ∧ b'.powers = {(b.fingerprint, e.fingerprint)} := by
      rw [isOne_iff.mp h1, ← eq_iff.mp hb'.2]
      cases b' with
      | power age k x => exact ⟨rfl, by rw [powers, if_pos (show k.isNum = true from hp')]⟩
      | _ => cases hp'
    rwa [hb1.1, hb1.2] at hpowers
  | false =>
    rw [distribute_eq_ofPower (by rw [isNum_congr hb'.2, isBase_congr hb'.2]; exact hs.base)
      ((isNumberPower_congr hb'.2).trans hp)]
    exact h.ofPower_copies hb' he'

/-- **An expression without powers to work on is its own simplification.** -/
theorem simplify_copies {e : Expr} (hc : e.Canonical) (hs : e.Simple) :
    Ensures e.simplify (Copies e) NoFault := by
  induction hc with
  | num n _ => exact .pure (.refl (.ofNum n))
  | var name => exact .pure (.refl (.var name))
  | @power age b e hb he form ihb ihe =>
    obtain ⟨hpower, hsb, hse⟩ := hs.power
    refine (ihb hsb).bind fun b' hb' => (ihe hse).bind fun e' he' => ?_
    have hp : b.isNumberPower = false := by
      by_contra hp
      rw [Bool.not_eq_false] at hp
      have h1 := hpower.exponent hp
      rw [form.exponent_ne_one] at h1
      cases h1
    rw [distribute_eq_ofPower (by rw [isNum_congr hb'.2, isBase_congr hb'.2]; exact hpower.base)
      ((isNumberPower_congr hb'.2).trans hp)]
    exact Expr.ofPower_copies (.power age hb he form) hb' he'
  | @product age c factors hred hb he form ihb ihe =>
    have hcanonical : (Expr.product age c factors).Canonical := .product age hred hb he form
    have hentries := hs.merged.entries hcanonical
    rw [simplify, simplifyFactors_eq]
    exact ofProduct_rebuilds hcanonical fun p hp =>
      simplifyPower_entry (hentries _ _ (mem_factorsFingerprint hp)) (hs.product p hp).1
        (ihb p hp (hs.product p hp).2.1) (ihe p hp (hs.product p hp).2.2)
  | @sum age c summands hred ht hr form ih =>
    rw [simplify, simplifySummands_eq]
    exact ofSum_rebuilds (.sum age hred ht hr form) (fun p hp => (hs.sum p hp).merged)
      fun p hp => ih p hp (hs.sum p hp)

/-- **Simplifying twice is simplifying once**, unless the simplified expression has powers of
numbers that are raised again. -/
theorem simplify_idempotent {e r : Expr} {s : Supply} (h : (e.simplify s).1 = .ok r)
    (hr : r.RaisedOnce) : r.simplify.Restores r := by
  have hc : r.Canonical := (simplify_canonical e).of_fst h
  have hd : r.Distributed := (simplify_distributed e).of_fst h
  exact (simplify_copies hc (hd.simple hr)).restores

/-- The expression of `(2x^y)^z`. -/
def powerOfMultiple : Expr := .power 14 (.product 13 ⟨2, 7⟩ [(.var "x", .var "y")]) (.var "z")

/-- The expression of `x^(yz)2^z`. -/
def distributedPower : Expr :=
  .product 30 ⟨1, 1⟩
    [(.var "x", .product 29 ⟨1, 28⟩ [(.var "y", .num ⟨1, 26⟩), (.var "z", .num ⟨1, 27⟩)]),
      (.power 15 (.num ⟨2, 6⟩) (.var "z"), .num ⟨1, 20⟩)]

/-- `(2x^y)^z` is simplified to `x^(yz)2^z`, and this to itself. -/
theorem simplify_idempotent_distributed :
    (powerOfMultiple.simplify .initial).1 = .ok distributedPower ∧ distributedPower.RaisedOnce ∧
      distributedPower.simplify.Restores distributedPower := by
  have hsimplify : (powerOfMultiple.simplify .initial).1 = .ok distributedPower := by cbv
  have hraised : distributedPower.RaisedOnce := by
    simp [RaisedOnce, distributedPower, subpowers, factorsSubpowers, isNumberPower, isNum, isOne,
      Num.isOne]
    rfl
  exact ⟨hsimplify, hraised, simplify_idempotent hsimplify hraised⟩

/-- The powers `2^x` and `2^((x^2)^(1/2))` are equal once they have been simplified, and their
product is `(2^x)^2`.  A second pass goes on to `2^(2x)`. -/
theorem simplify_not_idempotent : ∃ e r,
    (parse defaultLimit "2^x*2^((x^2)^(1/2))" .initial).1 = .ok e ∧ e.simplify.run = .ok r ∧
      Alters r.simplify r := ⟨_, _, by cbv, by cbv, _, by cbv, by cbv⟩

end ExactAlgebra.Expr
