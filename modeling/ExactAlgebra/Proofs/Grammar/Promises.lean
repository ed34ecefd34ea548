import ExactAlgebra.Proofs.Grammar.Actions

/-!
# What the actions on a tree promise

The passes of the actions go over the whole tree, one after the other.  What they make of it can be
told part by part all the same: a promise for a factor rests on promises for its operands, and so on
up to the tree.  A promise is a postcondition that holds whatever the supply is.

* `Primary.Promises`, `Factor.Promises`, `Term.Promises`, `Sum.Promises`: the rules, given what the
  leaves promise.
* `Tree.nesting`: how deeply brackets are nested in a tree.
* `actUnder_ensures`: the passes keep the promises.
-/

namespace ExactAlgebra.Grammar

open Passes Build

/-! ## Nesting -/

mutual

def Primary.nesting {α : Type} : Primary α → Nat
  | .leaf _ => 0
  | .group s => Tree.nesting s + 1

def Factor.nesting {α : Type} : Factor (Primary α) → Nat
  | .operand p => p.nesting
  | .power p _ f => max p.nesting f.nesting

def Term.nesting {α : Type} : Term (Factor (Primary α)) → Nat
  | .factor f => f.nesting
  | .multiply t _ f | .divide t _ f => max t.nesting f.nesting

def Tree.nesting {α : Type} : Tree α → Nat
  | .term _ t => t.nesting
  | .add s _ t => max (Tree.nesting s) t.nesting

end

/-! ## The rules -/

section Rules

variable (check : Nat → Build Unit) (F : Fault → Prop)

def checkedPower (base : Expr) (negated : Bool) (exponent : Expr) : Build Expr := do
  let power ← Expr.ofPower base (← signedOperand negated exponent)
  check power.height
  return power

/-- The sum of a group with the check of its height. -/
def checkedSum (terms : SignedTerms) : Build Expr := do
  let e ← sumOf terms
  check e.height
  return e

variable {α : Type} (R : α → (Expr → Prop) → Prop)

inductive Factor.Promises : Factor α → (Expr → Prop) → Prop where
  | operand {a : α} {P : Expr → Prop} (ha : R a P) : Promises (.operand a) P
  | power {a : α} {negated : Bool} {f : Factor α} {P Q S : Expr → Prop} (ha : R a Q)
      (hf : Promises f S)
      (h : ∀ b e, Q b → S e → Ensures (checkedPower check b negated e) P F) :
      Promises (.power a negated f) P

inductive Term.Promises : Term α → (List Expr → List Expr → Prop) → Prop where
  | factor {a : α} {P : Expr → Prop} {J : List Expr → List Expr → Prop} (ha : R a P)
      (h : ∀ e, P e → J [e] []) : Promises (.factor a) J
  | multiply {t : Term α} {negated : Bool} {a : α} {P : Expr → Prop}
      {I J : List Expr → List Expr → Prop} (ht : Promises t I) (ha : R a P)
      (h : ∀ factors divisors e, I factors divisors → P e →
        Ensures (signedOperand negated e) (fun e => J (factors ++ [e]) divisors) F) :
      Promises (.multiply t negated a) J
  | divide {t : Term α} {negated : Bool} {a : α} {P : Expr → Prop}
      {I J : List Expr → List Expr → Prop} (ht : Promises t I) (ha : R a P)
      (h : ∀ factors divisors e, I factors divisors → P e →
        Ensures (signedOperand negated e) (fun e => J factors (divisors ++ [e])) F) :
      Promises (.divide t negated a) J

/-- The signed terms of the sum will satisfy the postcondition. -/
inductive Sum.Promises : Sum α → (SignedTerms → Prop) → Prop where
  | term {negated : Bool} {t : Term α} {I : List Expr → List Expr → Prop} {J : SignedTerms → Prop}
      (ht : Term.Promises F R t I) (h : ∀ factors divisors, I factors divisors →
        Ensures (productOf factors divisors) (fun e => J [(e, signIf negated)]) F) :
      Promises (.term negated t) J
  | add {s : Sum α} {sign : Sign} {t : Term α} {I : List Expr → List Expr → Prop}
      {J K : SignedTerms → Prop} (hs : Promises s K) (ht : Term.Promises F R t I)
      (h : ∀ terms factors divisors, K terms → I factors divisors →
        Ensures (productOf factors divisors) (fun e => J (terms ++ [(e, sign)])) F) :
      Promises (.add s sign t) J

inductive Primary.Promises : Primary α → (Expr → Prop) → Prop where
  | leaf {a : α} {P : Expr → Prop} (ha : R a P) : Promises (.leaf a) P
  | group {s : Sum (Factor (Primary α))} {J : SignedTerms → Prop} {P : Expr → Prop}
      (hs : Sum.Promises F (Factor.Promises check F Promises) s J)
      (h : ∀ terms, J terms → Ensures (checkedSum check terms) P F) : Promises (.group s) P

abbrev Tree.Promises : Tree α → (SignedTerms → Prop) → Prop :=
  Sum.Promises F (Factor.Promises check F (Primary.Promises check F R))

/-- What building the leaf promises. -/
def Atom.Promises (a : Atom) (P : Expr → Prop) : Prop := Ensures a.build P F

/-- What is already worked out promises what holds of it. -/
def Holds (e : Expr) (P : Expr → Prop) : Prop := P e

end Rules

section Weakening

variable {check : Nat → Build Unit} {F : Fault → Prop} {P P' : Expr → Prop}

theorem Primary.Promises.imp {p : Primary Atom} (h : p.Promises check F (Atom.Promises F) P)
    (hP : ∀ e, P e → P' e) : p.Promises check F (Atom.Promises F) P' := by
  cases h with
  | leaf ha => exact .leaf (Ensures.imp ha hP)
  | group hs h => exact .group hs fun terms ht => (h terms ht).imp hP

theorem Factor.Promises.imp {f : Factor (Primary Atom)}
    (h : f.Promises check F (Primary.Promises check F (Atom.Promises F)) P)
    (hP : ∀ e, P e → P' e) :
    f.Promises check F (Primary.Promises check F (Atom.Promises F)) P' := by
  cases h with
  | operand ha => exact .operand (ha.imp hP)
  | power ha hf h => exact .power ha hf fun b e hb he => (h b e hb he).imp hP

theorem Term.Promises.imp {α : Type} {R : α → (Expr → Prop) → Prop} {t : Term α}
    {I J : List Expr → List Expr → Prop} (h : t.Promises F R I)
    (hJ : ∀ factors divisors, I factors divisors → J factors divisors) : t.Promises F R J := by
  cases h with
  | factor ha h => exact .factor ha fun e he => hJ _ _ (h e he)
  | multiply ht ha h =>
    exact .multiply ht ha fun factors divisors e hI he => (h factors divisors e hI he).imp
      fun _ => hJ _ _
  | divide ht ha h =>
    exact .divide ht ha fun factors divisors e hI he => (h factors divisors e hI he).imp
      fun _ => hJ _ _

end Weakening

/-! ## The passes -/

section Passes

variable {check : Nat → Build Unit} {F : Fault → Prop}

mutual

theorem Primary.build_promises (p : Primary Atom) {P : Expr → Prop}
    (h : p.Promises check F (Atom.Promises F) P) :
    Ensures p.build (fun p' => p'.Promises check F Holds P ∧ p'.nesting = p.nesting) F := by
  cases p with
  | leaf a =>
    cases h with
    | leaf ha =>
      rw [Primary.build]
      exact ha.bind fun e he => .pure ⟨.leaf he, by rw [Primary.nesting, Primary.nesting]⟩
  | group s =>
    cases h with
    | group hs h =>
      rw [Primary.build]
      exact (Tree.build_promises s hs).bind fun s' hs' =>
        .pure ⟨.group hs'.1 h, by rw [Primary.nesting, Primary.nesting, hs'.2]⟩

theorem Factor.build_promises (f : Factor (Primary Atom)) {P : Expr → Prop}
    (h : f.Promises check F (Primary.Promises check F (Atom.Promises F)) P) :
    Ensures f.build (fun f' => f'.Promises check F (Primary.Promises check F Holds) P ∧
      f'.nesting = f.nesting) F := by
  cases f with
  | operand p =>
    cases h with
    | operand ha =>
      rw [Factor.build]
      exact (Primary.build_promises p ha).bind fun p' hp =>
        .pure ⟨.operand hp.1, by rw [Factor.nesting, Factor.nesting, hp.2]⟩
  | power p negated f =>
    cases h with
    | power ha hf h =>
      rw [Factor.build]
      exact (Primary.build_promises p ha).bind fun p' hp =>
        (Factor.build_promises f hf).bind fun f' hf' =>
          .pure ⟨.power hp.1 hf'.1 h, by rw [Factor.nesting, Factor.nesting, hp.2, hf'.2]⟩

theorem Term.build_promises (t : Term (Factor (Primary Atom))) {J : List Expr → List Expr → Prop}
    (h : t.Promises F (Factor.Promises check F (Primary.Promises check F (Atom.Promises F))) J) :
    Ensures t.build (fun t' =>
      t'.Promises F (Factor.Promises check F (Primary.Promises check F Holds)) J ∧
        t'.nesting = t.nesting) F := by
  cases t with
  | factor f =>
    cases h with
    | factor ha h =>
      rw [Term.build]
      exact (Factor.build_promises f ha).bind fun f' hf =>
        .pure ⟨.factor hf.1 h, by rw [Term.nesting, Term.nesting, hf.2]⟩
  | multiply t negated f =>
    cases h with
    | multiply ht ha h =>
      rw [Term.build]
      exact (Term.build_promises t ht).bind fun t' ht' =>
        (Factor.build_promises f ha).bind fun f' hf =>
          .pure ⟨.multiply ht'.1 hf.1 h, by rw [Term.nesting, Term.nesting, ht'.2, hf.2]⟩
  | divide t negated f =>
    cases h with
    | divide ht ha h =>
      rw [Term.build]
      exact (Term.build_promises t ht).bind fun t' ht' =>
        (Factor.build_promises f ha).bind fun f' hf =>
          .pure ⟨.divide ht'.1 hf.1 h, by rw [Term.nesting, Term.nesting, ht'.2, hf.2]⟩

theorem Tree.build_promises (s : Tree Atom) {J : SignedTerms → Prop}
    (h : Tree.Promises check F (Atom.Promises F) s J) :
    Ensures (Tree.build s) (fun s' => Tree.Promises check F Holds s' J ∧
      Tree.nesting s' = Tree.nesting s) F := by
  cases s with
  | term negated t =>
    cases h with
    | term ht h =>
      rw [Tree.build]
      exact (Term.build_promises t ht).bind fun t' ht' =>
        .pure ⟨.term ht'.1 h, by rw [Tree.nesting, Tree.nesting, ht'.2]⟩
  | add s sign t =>
    cases h with
    | add hs ht h =>
      rw [Tree.build]
      exact (Tree.build_promises s hs).bind fun s' hs' =>
        (Term.build_promises t ht).bind fun t' ht' =>
          .pure ⟨.add hs'.1 ht'.1 h, by rw [Tree.nesting, Tree.nesting, hs'.2, ht'.2]⟩

end

/-! ### Powers -/

theorem Factor.raise_ensures {f : Factor Expr} {P : Expr → Prop}
    (h : f.Promises check F Holds P) : Ensures (f.raise check) P F := by
  induction h with
  | operand ha => exact .pure ha
  | power ha _ h ih => exact ih.bind fun e he => h _ e ha he

theorem Term.raise_promises {t : Term (Factor Expr)} {J : List Expr → List Expr → Prop}
    (h : t.Promises F (Factor.Promises check F Holds) J) :
    Ensures (t.raise check) (·.Promises F Holds J) F := by
  induction h with
  | factor ha h => exact (Factor.raise_ensures ha).bind fun e he => .pure (.factor he h)
  | multiply _ ha h ih =>
    exact (Factor.raise_ensures ha).bind fun e he => ih.bind fun t ht => .pure (.multiply ht he h)
  | divide _ ha h ih =>
    exact (Factor.raise_ensures ha).bind fun e he => ih.bind fun t ht => .pure (.divide ht he h)

theorem Sum.raise_promises {s : Sum (Factor Expr)} {J : SignedTerms → Prop}
    (h : s.Promises F (Factor.Promises check F Holds) J) :
    Ensures (s.raise check) (·.Promises F Holds J) F := by
  induction h with
  | term ht h => exact (Term.raise_promises ht).bind fun t ht => .pure (.term ht h)
  | add _ ht h ih =>
    exact (Term.raise_promises ht).bind fun t ht => ih.bind fun s hs => .pure (.add hs ht h)

/-! ### Products and sums -/

theorem Term.operands_ensures {t : Term Expr} {J : List Expr → List Expr → Prop}
    (h : t.Promises F Holds J) : Ensures t.operands (fun p => J p.1 p.2) F := by
  induction h with
  | factor ha h => exact .pure (h _ ha)
  | multiply _ ha h ih =>
    exact ih.bind fun p hp => (h p.1 p.2 _ hp ha).bind fun e he => .pure he
  | divide _ ha h ih =>
    exact ih.bind fun p hp => (h p.1 p.2 _ hp ha).bind fun e he => .pure he

theorem Sum.addends_ensures {s : Sum Expr} {J : SignedTerms → Prop} (h : s.Promises F Holds J) :
    Ensures s.addends J F := by
  induction h with
  | term ht h =>
    exact ((Term.operands_ensures ht).bind fun p hp => h p.1 p.2 hp).bind fun e he => .pure he
  | add _ ht h ih =>
    exact ih.bind fun terms hterms =>
      ((Term.operands_ensures ht).bind fun p hp => h terms p.1 p.2 hterms hp).bind fun e he =>
        .pure he

theorem Sum.combine_ensures {s : Sum (Factor Expr)} {J : SignedTerms → Prop} {P : Expr → Prop}
    (hs : s.Promises F (Factor.Promises check F Holds) J)
    (h : ∀ terms, J terms → Ensures (checkedSum check terms) P F) :
    Ensures (s.combine check) P F := by
  have hcombine : s.combine check = (do
      let s ← s.raise check
      let terms ← s.addends
      checkedSum check terms) := by
    simp only [Sum.combine, Sum.total, checkedSum, bind_assoc]
  rw [hcombine]
  exact (Sum.raise_promises hs).bind fun s hs => (Sum.addends_ensures hs).bind h

/-! ### Groups -/

section Groups

variable {N : Nat}

mutual

theorem Primary.resolve_ensures (hcheck : ∀ n ≤ N, Ensures (check n) (fun _ => True) F)
    (p : Primary Expr) {P : Expr → Prop}
    (h : p.Promises check F Holds P) {depth : Nat} (hN : depth + p.nesting ≤ N) :
    Ensures (p.resolve check depth) P F := by
  cases p with
  | leaf e =>
    cases h with
    | leaf ha => rw [Primary.resolve]; exact .pure ha
  | group s =>
    cases h with
    | group hs h =>
      rw [Primary.nesting] at hN
      rw [Primary.resolve]
      have hs : Ensures (Tree.groups check (depth + 1) s)
          (·.Promises F (Factor.Promises check F Holds) _) F :=
        Tree.groups_promises hcheck s hs (by omega)
      exact (hcheck (depth + 1) (by omega)).bind fun _ _ => hs.bind fun s hs =>
        Sum.combine_ensures hs h

theorem Factor.groups_promises (hcheck : ∀ n ≤ N, Ensures (check n) (fun _ => True) F)
    (f : Factor (Primary Expr)) {P : Expr → Prop}
    (h : f.Promises check F (Primary.Promises check F Holds) P) {depth : Nat}
    (hN : depth + f.nesting ≤ N) :
    Ensures (f.groups check depth) (·.Promises check F Holds P) F := by
  cases f with
  | operand p =>
    cases h with
    | operand ha =>
      rw [Factor.nesting] at hN
      rw [Factor.groups]
      exact (Primary.resolve_ensures hcheck p ha hN).bind fun e he => .pure (.operand he)
  | power p negated f =>
    cases h with
    | power ha hf h =>
      rw [Factor.nesting] at hN
      rw [Factor.groups]
      exact (Primary.resolve_ensures hcheck p ha (by omega)).bind fun e he =>
        (Factor.groups_promises hcheck f hf (by omega)).bind fun f hf => .pure (.power he hf h)

theorem Term.groups_promises (hcheck : ∀ n ≤ N, Ensures (check n) (fun _ => True) F)
    (t : Term (Factor (Primary Expr))) {J : List Expr → List Expr → Prop}
    (h : t.Promises F (Factor.Promises check F (Primary.Promises check F Holds)) J) {depth : Nat}
    (hN : depth + t.nesting ≤ N) :
    Ensures (t.groups check depth) (·.Promises F (Factor.Promises check F Holds) J) F := by
  cases t with
  | factor f =>
    cases h with
    | factor ha h =>
      rw [Term.nesting] at hN
      rw [Term.groups]
      exact (Factor.groups_promises hcheck f ha hN).bind fun f hf => .pure (.factor hf h)
  | multiply t negated f =>
    cases h with
    | multiply ht ha h =>
      rw [Term.nesting] at hN
      rw [Term.groups]
      exact (Term.groups_promises hcheck t ht (by omega)).bind fun t ht =>
        (Factor.groups_promises hcheck f ha (by omega)).bind fun f hf => .pure (.multiply ht hf h)
  | divide t negated f =>
    cases h with
    | divide ht ha h =>
      rw [Term.nesting] at hN
      rw [Term.groups]
      exact (Term.groups_promises hcheck t ht (by omega)).bind fun t ht =>
        (Factor.groups_promises hcheck f ha (by omega)).bind fun f hf => .pure (.divide ht hf h)

theorem Tree.groups_promises (hcheck : ∀ n ≤ N, Ensures (check n) (fun _ => True) F)
    (s : Tree Expr) {J : SignedTerms → Prop}
    (h : Tree.Promises check F Holds s J) {depth : Nat} (hN : depth + Tree.nesting s ≤ N) :
    Ensures (Tree.groups check depth s) (·.Promises F (Factor.Promises check F Holds) J) F := by
  cases s with
  | term negated t =>
    cases h with
    | term ht h =>
      rw [Tree.nesting] at hN
      rw [Tree.groups]
      exact (Term.groups_promises hcheck t ht hN).bind fun t ht => .pure (.term ht h)
  | add s sign t =>
    cases h with
    | add hs ht h =>
      rw [Tree.nesting] at hN
      rw [Tree.groups]
      exact (Tree.groups_promises hcheck s hs (by omega)).bind fun s hs =>
        (Term.groups_promises hcheck t ht (by omega)).bind fun t ht => .pure (.add hs ht h)

end

/-- **The actions on a tree keep what its parts promise**, as far as the brackets are not nested too
deeply. -/
theorem actUnder_ensures (hcheck : ∀ n ≤ N, Ensures (check n) (fun _ => True) F)
    {s : Tree Atom} {J : SignedTerms → Prop} {P : Expr → Prop}
    (hs : Tree.Promises check F (Atom.Promises F) s J) (hN : Tree.nesting s ≤ N)
    (h : ∀ terms, J terms → Ensures (checkedSum check terms) P F) :
    Ensures (Tree.actUnder check s) P F := by
  refine (Tree.build_promises s hs).bind fun s' hs' => (hcheck 0 (Nat.zero_le N)).bind fun _ _ => ?_
  have hgroups : Ensures (Tree.groups check 0 s')
      (·.Promises F (Factor.Promises check F Holds) J) F :=
    Tree.groups_promises hcheck s' hs'.1 (by omega)
  exact hgroups.bind fun s hs => Sum.combine_ensures hs h

end Groups

end Passes

end ExactAlgebra.Grammar
