import ExactAlgebra.Proofs.Grammar.Refinement

/-!
# What parsing keeps

A logic tells what a construction does in a world, say what is known of the nodes that have been
built.  Whatever holds of the leaves of a text, and of what is built from expressions of which it
holds, holds of the expression of the text.  This goes for every logic with rules for returning and
for sequences.

* `Logic`: a logic of constructions.  `Logic.Keeps`: what all constructions keep.
* `Factor.All`, `Term.All`, `Sum.All`, `Primary.All`: trees all of whose leaves have a property.
* `Logic.Keeps.parse`: parsing keeps what all constructions keep.
-/

namespace ExactAlgebra.Grammar

open Build Passes

/-- A logic of constructions: in some world a construction does something, and what it returns has a
property in the world that it leaves. -/
structure Logic (World : Type) [Preorder World] where
  Holds : {α : Type} → World → Build α → (World → α → Prop) → Prop
  pure : ∀ {α : Type} {w : World} {a : α} {P : World → α → Prop}, P w a → Holds w (return a) P
  throw : ∀ {α : Type} {w : World} {fault : TextFault} {P : World → α → Prop},
    Holds w (throw (.text fault)) P
  bind : ∀ {α β : Type} {w : World} {m : Build α} {f : α → Build β} {P : World → α → Prop}
    {Q : World → β → Prop}, Holds w m P → (∀ w' a, w ≤ w' → P w' a → Holds w' (f a) Q) →
      Holds w (m >>= f) Q

/-- The constructions return expressions with a property if they are given such expressions. -/
structure Logic.Keeps {World : Type} [Preorder World] (L : Logic World) (P : World → Expr → Prop) :
    Prop where
  mono : ∀ {w w' : World} {e : Expr}, w ≤ w' → P w e → P w' e
  atom : ∀ (w : World) (a : Atom), L.Holds w a.build P
  neg : ∀ {w : World} {e : Expr}, P w e → L.Holds w e.neg P
  ofPower : ∀ {w : World} {b e : Expr}, P w b → P w e → L.Holds w (Expr.ofPower b e) P
  ofProduct : ∀ {w : World} {factors divisors : List Expr}, (∀ e ∈ factors, P w e) →
    (∀ e ∈ divisors, P w e) → L.Holds w (Expr.ofProduct factors divisors) P
  ofSum : ∀ {w : World} {terms : SignedTerms}, (∀ p ∈ terms, P w p.1) →
    L.Holds w (Expr.ofSum terms) P

/-! ## Leaves -/

section All

variable {α : Type} (P : α → Prop)

inductive Factor.All : Factor α → Prop where
  | operand {a : α} (ha : P a) : All (.operand a)
  | power {a : α} {negated : Bool} {f : Factor α} (ha : P a) (hf : All f) : All (.power a negated f)

inductive Term.All : Term α → Prop where
  | factor {a : α} (ha : P a) : All (.factor a)
  | multiply {t : Term α} {negated : Bool} {a : α} (ht : All t) (ha : P a) :
    All (.multiply t negated a)
  | divide {t : Term α} {negated : Bool} {a : α} (ht : All t) (ha : P a) : All (.divide t negated a)

inductive Sum.All : Sum α → Prop where
  | term {negated : Bool} {t : Term α} (ht : t.All P) : All (.term negated t)
  | add {s : Sum α} {sign : Sign} {t : Term α} (hs : All s) (ht : t.All P) : All (.add s sign t)

inductive Primary.All : Primary α → Prop where
  | leaf {a : α} (ha : P a) : All (.leaf a)
  | group {s : Sum (Factor (Primary α))} (hs : s.All (Factor.All All)) : All (.group s)

abbrev Tree.All : Tree α → Prop := Sum.All (Factor.All (Primary.All P))

section Imp

variable {P} {P' : α → Prop}

theorem Factor.All.imp {f : Factor α} (h : f.All P) (hP : ∀ a, P a → P' a) : f.All P' := by
  induction h with
  | operand ha => exact .operand (hP _ ha)
  | power ha _ ih => exact .power (hP _ ha) ih

theorem Term.All.imp {t : Term α} (h : t.All P) (hP : ∀ a, P a → P' a) : t.All P' := by
  induction h with
  | factor ha => exact .factor (hP _ ha)
  | multiply _ ha ih => exact .multiply ih (hP _ ha)
  | divide _ ha ih => exact .divide ih (hP _ ha)

theorem Sum.All.imp {s : Sum α} (h : s.All P) (hP : ∀ a, P a → P' a) : s.All P' := by
  induction h with
  | term ht => exact .term (ht.imp hP)
  | add _ ht ih => exact .add ih (ht.imp hP)

end Imp

end All

mutual

theorem Primary.All.mono {P P' : Expr → Prop} (hP : ∀ e, P e → P' e) {p : Primary Expr}
    (h : p.All P) : p.All P' := by
  cases p with
  | leaf e => cases h with | leaf he => exact .leaf (hP e he)
  | group s => cases h with | group hs => exact .group (Tree.All.mono hP hs)

theorem Factor.All.mono {P P' : Expr → Prop} (hP : ∀ e, P e → P' e) {f : Factor (Primary Expr)}
    (h : f.All (Primary.All P)) : f.All (Primary.All P') := by
  cases f with
  | operand p => cases h with | operand hp => exact .operand (Primary.All.mono hP hp)
  | power p negated f =>
    cases h with | power hp hf => exact .power (Primary.All.mono hP hp) (Factor.All.mono hP hf)

theorem Term.All.mono {P P' : Expr → Prop} (hP : ∀ e, P e → P' e)
    {t : Term (Factor (Primary Expr))} (h : t.All (Factor.All (Primary.All P))) :
    t.All (Factor.All (Primary.All P')) := by
  cases t with
  | factor f => cases h with | factor hf => exact .factor (Factor.All.mono hP hf)
  | multiply t negated f =>
    cases h with | multiply ht hf => exact .multiply (Term.All.mono hP ht) (Factor.All.mono hP hf)
  | divide t negated f =>
    cases h with | divide ht hf => exact .divide (Term.All.mono hP ht) (Factor.All.mono hP hf)

theorem Tree.All.mono {P P' : Expr → Prop} (hP : ∀ e, P e → P' e) {s : Tree Expr}
    (h : Tree.All P s) : Tree.All P' s := by
  cases s with
  | term negated t => cases h with | term ht => exact .term (Term.All.mono hP ht)
  | add s sign t =>
    cases h with | add hs ht => exact .add (Tree.All.mono hP hs) (Term.All.mono hP ht)

end

/-! ## The passes -/

namespace Logic.Keeps

variable {World : Type} [Preorder World] {L : Logic World} {P : World → Expr → Prop} (h : L.Keeps P)

include h

mutual

theorem buildPrimary (w : World) (p : Primary Atom) : L.Holds w p.build fun w p => p.All (P w) := by
  cases p with
  | leaf a =>
    rw [Primary.build]
    exact L.bind (h.atom w a) fun _ _ _ he => L.pure (.leaf he)
  | group s =>
    rw [Primary.build]
    exact L.bind (buildTree w s) fun _ _ _ hs => L.pure (.group hs)

theorem buildFactor (w : World) (f : Factor (Primary Atom)) :
    L.Holds w f.build fun w f => f.All (Primary.All (P w)) := by
  cases f with
  | operand p =>
    rw [Factor.build]
    exact L.bind (buildPrimary w p) fun _ _ _ hp => L.pure (.operand hp)
  | power p negated f =>
    rw [Factor.build]
    exact L.bind (buildPrimary w p) fun w' _ _ hp => L.bind (buildFactor w' f) fun _ _ hle hf =>
      L.pure (.power (hp.mono fun _ => h.mono hle) hf)

theorem buildTerm (w : World) (t : Term (Factor (Primary Atom))) :
    L.Holds w t.build fun w t => t.All (Factor.All (Primary.All (P w))) := by
  cases t with
  | factor f =>
    rw [Term.build]
    exact L.bind (buildFactor w f) fun _ _ _ hf => L.pure (.factor hf)
  | multiply t negated f =>
    rw [Term.build]
    exact L.bind (buildTerm w t) fun w' _ _ ht => L.bind (buildFactor w' f) fun _ _ hle hf =>
      L.pure (.multiply (Term.All.mono (fun _ => h.mono hle) ht) hf)
  | divide t negated f =>
    rw [Term.build]
    exact L.bind (buildTerm w t) fun w' _ _ ht => L.bind (buildFactor w' f) fun _ _ hle hf =>
      L.pure (.divide (Term.All.mono (fun _ => h.mono hle) ht) hf)

theorem buildTree (w : World) (s : Tree Atom) :
    L.Holds w (Tree.build s) fun w s => Tree.All (P w) s := by
  cases s with
  | term negated t =>
    rw [Tree.build]
    exact L.bind (buildTerm w t) fun _ _ _ ht => L.pure (.term ht)
  | add s sign t =>
    rw [Tree.build]
    exact L.bind (buildTree w s) fun w' _ _ hs => L.bind (buildTerm w' t) fun _ _ hle ht =>
      L.pure (.add (Tree.All.mono (fun _ => h.mono hle) hs) ht)

end

theorem signedOperand {w : World} (negated : Bool) {e : Expr} (he : P w e) :
    L.Holds w (signedOperand negated e) P := by
  cases negated with
  | false => exact L.pure he
  | true => exact h.neg he

theorem productOf {w : World} {factors divisors : List Expr} (hf : ∀ e ∈ factors, P w e)
    (hd : ∀ e ∈ divisors, P w e) : L.Holds w (productOf factors divisors) P := by
  unfold Grammar.productOf
  split
  · exact L.pure (hf _ List.mem_cons_self)
  · exact h.ofProduct hf hd

theorem sumOf {w : World} {terms : SignedTerms} (ht : ∀ p ∈ terms, P w p.1) :
    L.Holds w (sumOf terms) P := by
  unfold Grammar.sumOf
  split
  · exact L.pure (ht _ List.mem_cons_self)
  · exact h.ofSum ht

/-- The factors and divisors of a term. -/
theorem operands {w : World} {t : Term Expr} (ht : t.All (P w)) :
    L.Holds w t.operands fun w p => (∀ e ∈ p.1, P w e) ∧ ∀ e ∈ p.2, P w e := by
  induction ht with
  | factor he => exact L.pure ⟨List.forall_mem_singleton.mpr he, List.forall_mem_nil _⟩
  | @multiply t negated e _ he ih =>
    refine L.bind ih fun w' p hle hp => L.bind (h.signedOperand negated (h.mono hle he)) ?_
    intro w'' e hle he
    exact L.pure ⟨List.forall_mem_append.mpr ⟨fun e he => h.mono hle (hp.1 e he),
      List.forall_mem_singleton.mpr he⟩, fun e he => h.mono hle (hp.2 e he)⟩
  | @divide t negated e _ he ih =>
    refine L.bind ih fun w' p hle hp => L.bind (h.signedOperand negated (h.mono hle he)) ?_
    intro w'' e hle he
    exact L.pure ⟨fun e he => h.mono hle (hp.1 e he), List.forall_mem_append.mpr
      ⟨fun e he => h.mono hle (hp.2 e he), List.forall_mem_singleton.mpr he⟩⟩

theorem product {w : World} {t : Term Expr} (ht : t.All (P w)) : L.Holds w t.product P :=
  L.bind (h.operands ht) fun _ _ _ hp => h.productOf hp.1 hp.2

theorem addends {w : World} {s : Sum Expr} (hs : s.All (P w)) :
    L.Holds w s.addends fun w terms => ∀ p ∈ terms, P w p.1 := by
  induction hs with
  | term ht => exact L.bind (h.product ht) fun _ _ _ he => L.pure (List.forall_mem_singleton.mpr he)
  | add _ ht ih =>
    refine L.bind ih fun w' terms hle hterms => ?_
    refine L.bind (h.product (ht.imp fun _ => h.mono hle)) fun w'' e hle he => L.pure ?_
    exact List.forall_mem_append.mpr
      ⟨fun p hp => h.mono hle (hterms p hp), List.forall_mem_singleton.mpr he⟩

section Limit

variable (source : String) (limit : Int)

omit h in
theorem checkLevels (w : World) (levels : Nat) :
    L.Holds w (checkLevels source limit levels) fun _ _ => True := by
  unfold Passes.checkLevels
  split
  · exact L.throw
  · exact L.pure trivial

theorem raiseFactor {w : World} {f : Factor Expr} (hf : f.All (P w)) :
    L.Holds w (f.raise (Passes.checkLevels source limit)) P := by
  induction hf with
  | operand he => exact L.pure he
  | @power b negated f hb _ ih =>
    refine L.bind ih fun w' e hle he => L.bind (h.signedOperand negated he) fun w'' e hle' he => ?_
    refine L.bind (h.ofPower (h.mono hle' (h.mono hle hb)) he) fun w₁ power _ hpower => ?_
    exact L.bind (checkLevels source limit w₁ _) fun _ _ hle _ => L.pure (h.mono hle hpower)

theorem raiseTerm {w : World} {t : Term (Factor Expr)} (ht : t.All (Factor.All (P w))) :
    L.Holds w (t.raise (Passes.checkLevels source limit)) fun w t => t.All (P w) := by
  induction t generalizing w with
  | factor f =>
    cases ht with
    | factor hf => exact L.bind (h.raiseFactor source limit hf) fun _ _ _ he => L.pure (.factor he)
  | multiply t negated f ih =>
    cases ht with
    | multiply ht hf =>
      refine L.bind (h.raiseFactor source limit hf) fun w' e hle he => ?_
      have ht : t.All (Factor.All (P w')) := ht.imp fun _ hf => hf.imp fun _ => h.mono hle
      exact L.bind (ih ht) fun _ _ hle ht => L.pure (.multiply ht (h.mono hle he))
  | divide t negated f ih =>
    cases ht with
    | divide ht hf =>
      refine L.bind (h.raiseFactor source limit hf) fun w' e hle he => ?_
      have ht : t.All (Factor.All (P w')) := ht.imp fun _ hf => hf.imp fun _ => h.mono hle
      exact L.bind (ih ht) fun _ _ hle ht => L.pure (.divide ht (h.mono hle he))

theorem raiseSum {w : World} {s : Sum (Factor Expr)} (hs : s.All (Factor.All (P w))) :
    L.Holds w (s.raise (Passes.checkLevels source limit)) fun w s => s.All (P w) := by
  induction s generalizing w with
  | term negated t =>
    cases hs with
    | term ht => exact L.bind (h.raiseTerm source limit ht) fun _ _ _ ht => L.pure (.term ht)
  | add s sign t ih =>
    cases hs with
    | add hs ht =>
      refine L.bind (h.raiseTerm source limit ht) fun w' t' hle ht => ?_
      have hs : s.All (Factor.All (P w')) := hs.imp fun _ hf => hf.imp fun _ => h.mono hle
      exact L.bind (ih hs) fun _ _ hle hs => L.pure (.add hs (ht.imp fun _ => h.mono hle))

theorem combine {w : World} {s : Sum (Factor Expr)} (hs : s.All (Factor.All (P w))) :
    L.Holds w (s.combine (Passes.checkLevels source limit)) P := by
  refine L.bind (h.raiseSum source limit hs) fun _ _ _ hs => ?_
  have htotal : L.Holds _ (Sum.total _) P := L.bind (h.addends hs) fun _ _ _ ht => h.sumOf ht
  refine L.bind htotal fun _ _ _ he => ?_
  exact L.bind (checkLevels source limit _ _) fun _ _ hle _ => L.pure (h.mono hle he)

mutual

theorem resolvePrimary (w : World) (depth : Nat) (p : Primary Expr) (hp : p.All (P w)) :
    L.Holds w (p.resolve (Passes.checkLevels source limit) depth) P := by
  cases p with
  | leaf e =>
    cases hp with
    | leaf he => rw [Primary.resolve]; exact L.pure he
  | group s =>
    cases hp with
    | group hs =>
      rw [Primary.resolve]
      refine L.bind (checkLevels source limit w _) fun w' _ hle _ => ?_
      have hs : Tree.All (P w') s := Tree.All.mono (fun _ => h.mono hle) hs
      exact L.bind (groupsTree w' _ s hs) fun _ _ _ hs => h.combine source limit hs

theorem groupsFactor (w : World) (depth : Nat) (f : Factor (Primary Expr))
    (hf : f.All (Primary.All (P w))) :
    L.Holds w (f.groups (Passes.checkLevels source limit) depth) fun w f => f.All (P w) := by
  cases f with
  | operand p =>
    cases hf with
    | operand hp =>
      rw [Factor.groups]
      exact L.bind (resolvePrimary w depth p hp) fun _ _ _ he => L.pure (.operand he)
  | power p negated f =>
    cases hf with
    | power hp hf =>
      rw [Factor.groups]
      refine L.bind (resolvePrimary w depth p hp) fun w' e hle he => ?_
      have hf : f.All (Primary.All (P w')) := Factor.All.mono (fun _ => h.mono hle) hf
      exact L.bind (groupsFactor w' depth f hf) fun _ _ hle hf => L.pure (.power (h.mono hle he) hf)

theorem groupsTerm (w : World) (depth : Nat) (t : Term (Factor (Primary Expr)))
    (ht : t.All (Factor.All (Primary.All (P w)))) :
    L.Holds w (t.groups (Passes.checkLevels source limit) depth)
      fun w t => t.All (Factor.All (P w)) := by
  cases t with
  | factor f =>
    cases ht with
    | factor hf =>
      rw [Term.groups]
      exact L.bind (groupsFactor w depth f hf) fun _ _ _ hf => L.pure (.factor hf)
  | multiply t negated f =>
    cases ht with
    | multiply ht hf =>
      rw [Term.groups]
      refine L.bind (groupsTerm w depth t ht) fun w' t' hle ht => ?_
      have hf : f.All (Primary.All (P w')) := Factor.All.mono (fun _ => h.mono hle) hf
      exact L.bind (groupsFactor w' depth f hf) fun _ _ hle hf =>
        L.pure (.multiply (ht.imp fun _ hf => hf.imp fun _ => h.mono hle) hf)
  | divide t negated f =>
    cases ht with
    | divide ht hf =>
      rw [Term.groups]
      refine L.bind (groupsTerm w depth t ht) fun w' t' hle ht => ?_
      have hf : f.All (Primary.All (P w')) := Factor.All.mono (fun _ => h.mono hle) hf
      exact L.bind (groupsFactor w' depth f hf) fun _ _ hle hf =>
        L.pure (.divide (ht.imp fun _ hf => hf.imp fun _ => h.mono hle) hf)

theorem groupsTree (w : World) (depth : Nat) (s : Tree Expr) (hs : Tree.All (P w) s) :
    L.Holds w (Tree.groups (Passes.checkLevels source limit) depth s)
      fun w s => s.All (Factor.All (P w)) := by
  cases s with
  | term negated t =>
    cases hs with
    | term ht =>
      rw [Tree.groups]
      exact L.bind (groupsTerm w depth t ht) fun _ _ _ ht => L.pure (.term ht)
  | add s sign t =>
    cases hs with
    | add hs ht =>
      rw [Tree.groups]
      refine L.bind (groupsTree w depth s hs) fun w' s' hle hs => ?_
      have ht : t.All (Factor.All (Primary.All (P w'))) := Term.All.mono (fun _ => h.mono hle) ht
      exact L.bind (groupsTerm w' depth t ht) fun _ _ hle ht =>
        L.pure (.add (hs.imp fun _ hf => hf.imp fun _ => h.mono hle) ht)

end

/-- **Parsing keeps what all constructions keep.** -/
theorem parse (w : World) : L.Holds w (Expr.parse limit source) P := by
  rcases htokens : tokenize source with fault | tokens
  · rw [Expr.parse, htokens]
    exact L.throw
  · obtain ⟨s, rfl⟩ := exists_tree_of_tokenize htokens
    rw [parse_eq_actUnder htokens]
    refine L.bind (h.buildTree w s) fun w₁ s₁ _ hs => ?_
    refine L.bind (checkLevels source limit w₁ 0) fun w₂ _ hle _ => ?_
    have hs : Tree.All (P w₂) s₁ := Tree.All.mono (fun _ => h.mono hle) hs
    exact L.bind (h.groupsTree source limit w₂ 0 s₁ hs) fun _ _ _ hs => h.combine source limit hs

end Limit

end Logic.Keeps

end ExactAlgebra.Grammar
