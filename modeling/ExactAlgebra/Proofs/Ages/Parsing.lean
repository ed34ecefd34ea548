import ExactAlgebra.Proofs.Ages.Draft
import ExactAlgebra.Proofs.Grammar.Refinement

/-!
# Parsing in two runs

The actions on a tree go over it pass by pass.  Each pass leaves trees of one shape, and from alike
operands it makes alike ones; so a text is parsed to alike expressions, whatever was built before.

* `Factor.Related`, `Term.Related`, `Sum.Related`, `Primary.Related`: trees of one shape with
  related operands.
* `Tree.build_couples`, `Tree.groups_couples`, `Sum.combine_couples`: the passes, one by one.
* `Expr.parse_couples`: the same text twice.
-/

namespace ExactAlgebra

open Build ExactAlgebra.Expr

variable {W V : Pairing}

namespace Grammar

/-! ## Trees of one shape -/

section Related

variable {α : Type}

inductive Factor.Related (R : α → α → Prop) : Factor α → Factor α → Prop
  | operand {a a' : α} : R a a' → Related R (.operand a) (.operand a')
  | power {a a' : α} {negated : Bool} {f f' : Factor α} : R a a' → Related R f f' →
    Related R (.power a negated f) (.power a' negated f')

inductive Term.Related (R : α → α → Prop) : Term α → Term α → Prop
  | factor {a a' : α} : R a a' → Related R (.factor a) (.factor a')
  | multiply {t t' : Term α} {negated : Bool} {a a' : α} : Related R t t' → R a a' →
    Related R (.multiply t negated a) (.multiply t' negated a')
  | divide {t t' : Term α} {negated : Bool} {a a' : α} : Related R t t' → R a a' →
    Related R (.divide t negated a) (.divide t' negated a')

inductive Sum.Related (R : α → α → Prop) : Sum α → Sum α → Prop
  | term {negated : Bool} {t t' : Term α} : Term.Related R t t' →
    Related R (.term negated t) (.term negated t')
  | add {s s' : Sum α} {sign : Sign} {t t' : Term α} : Related R s s' → Term.Related R t t' →
    Related R (.add s sign t) (.add s' sign t')

inductive Primary.Related (R : α → α → Prop) : Primary α → Primary α → Prop
  | leaf {a a' : α} : R a a' → Related R (.leaf a) (.leaf a')
  | group {s s' : Tree α} : Sum.Related (Factor.Related (Primary.Related R)) s s' →
    Related R (.group s) (.group s')

variable {R S : α → α → Prop}

theorem Factor.Related.imp {f f' : Factor α} (h : Related R f f') (hR : ∀ a a', R a a' → S a a') :
    Related S f f' := by
  induction h with
  | operand ha => exact .operand (hR _ _ ha)
  | power ha _ ih => exact .power (hR _ _ ha) ih

theorem Term.Related.imp {t t' : Term α} (h : Related R t t') (hR : ∀ a a', R a a' → S a a') :
    Related S t t' := by
  induction h with
  | factor ha => exact .factor (hR _ _ ha)
  | multiply _ ha ih => exact .multiply ih (hR _ _ ha)
  | divide _ ha ih => exact .divide ih (hR _ _ ha)

theorem Sum.Related.imp {s s' : Sum α} (h : Related R s s') (hR : ∀ a a', R a a' → S a a') :
    Related S s s' := by
  induction h with
  | term ht => exact .term (ht.imp hR)
  | add _ ht ih => exact .add ih (ht.imp hR)

mutual

theorem Primary.Related.imp (hR : ∀ a a', R a a' → S a a') {p p' : Primary α}
    (h : Primary.Related R p p') : Primary.Related S p p' := by
  cases p with
  | leaf a => cases h with | leaf ha => exact .leaf (hR _ _ ha)
  | group s => cases h with | group hs => exact .group (Tree.related_imp hR hs)

theorem Factor.related_imp (hR : ∀ a a', R a a' → S a a') {f f' : Factor (Primary α)}
    (h : f.Related (Primary.Related R) f') : f.Related (Primary.Related S) f' := by
  cases f with
  | operand p => cases h with | operand hp => exact .operand (hp.imp hR)
  | power p negated f =>
    cases h with | power hp hf => exact .power (hp.imp hR) (Factor.related_imp hR hf)

theorem Term.related_imp (hR : ∀ a a', R a a' → S a a') {t t' : Term (Factor (Primary α))}
    (h : t.Related (Factor.Related (Primary.Related R)) t') :
    t.Related (Factor.Related (Primary.Related S)) t' := by
  cases t with
  | factor f => cases h with | factor hf => exact .factor (Factor.related_imp hR hf)
  | multiply t negated f =>
    cases h with
    | multiply ht hf => exact .multiply (Term.related_imp hR ht) (Factor.related_imp hR hf)
  | divide t negated f =>
    cases h with
    | divide ht hf => exact .divide (Term.related_imp hR ht) (Factor.related_imp hR hf)

theorem Tree.related_imp (hR : ∀ a a', R a a' → S a a') {s s' : Tree α}
    (h : s.Related (Factor.Related (Primary.Related R)) s') :
    s.Related (Factor.Related (Primary.Related S)) s' := by
  cases s with
  | term negated t => cases h with | term ht => exact .term (Term.related_imp hR ht)
  | add s sign t =>
    cases h with
    | add hs ht => exact .add (Tree.related_imp hR hs) (Term.related_imp hR ht)

end

end Related

/-! ## Leaves -/

theorem Atom.build_couples (a : Atom) : Couples W a.build a.build Alike := by
  cases a with
  | number n => rw [Atom.build_number]; exact number_couples (Num.new_couples rfl)
  | «variable» name => exact .pure (.var _)

abbrev Primary.Alike (W : Pairing) : Primary Expr → Primary Expr → Prop :=
  Primary.Related (Expr.Alike W)

abbrev Tree.Alike (W : Pairing) : Tree Expr → Tree Expr → Prop :=
  Sum.Related (Factor.Related (Primary.Alike W))

theorem Tree.Alike.mono {s s' : Tree Expr} (hV : W ≤ V) (h : Tree.Alike W s s') :
    Tree.Alike V s s' := Tree.related_imp (fun _ _ => .mono hV) h

section Build

variable {R : Pairing → Expr → Expr → Prop}

mutual

theorem Primary.build_related {W : Pairing}
    (hR : ∀ {W V : Pairing} {e e'}, W ≤ V → R W e e' → R V e e')
    (hatom : ∀ (W : Pairing) (a : Atom), Couples W a.build a.build R) (p : Primary Atom) :
    Couples W p.build p.build fun V => Primary.Related (R V) := by
  cases p with
  | leaf a =>
    rw [Primary.build]
    exact (hatom W a).bind fun _ _ _ _ h => .pure (.leaf h)
  | group s =>
    rw [Primary.build]
    exact (Tree.build_related hR hatom s).bind fun _ _ _ _ h => .pure (.group h)

theorem Factor.build_related {W : Pairing}
    (hR : ∀ {W V : Pairing} {e e'}, W ≤ V → R W e e' → R V e e')
    (hatom : ∀ (W : Pairing) (a : Atom), Couples W a.build a.build R)
    (f : Factor (Primary Atom)) :
    Couples W f.build f.build fun V => Factor.Related (Primary.Related (R V)) := by
  cases f with
  | operand p =>
    rw [Factor.build]
    exact (Primary.build_related hR hatom p).bind fun _ _ _ _ h => .pure (.operand h)
  | power p negated f =>
    rw [Factor.build]
    exact (Primary.build_related hR hatom p).bind fun _ _ _ _ hp =>
      (Factor.build_related hR hatom f).bind fun _ _ _ hV hf =>
        .pure (.power (hp.imp fun _ _ => hR hV) hf)

theorem Term.build_related {W : Pairing}
    (hR : ∀ {W V : Pairing} {e e'}, W ≤ V → R W e e' → R V e e')
    (hatom : ∀ (W : Pairing) (a : Atom), Couples W a.build a.build R)
    (t : Term (Factor (Primary Atom))) :
    Couples W t.build t.build fun V => Term.Related (Factor.Related (Primary.Related (R V))) := by
  cases t with
  | factor f =>
    rw [Term.build]
    exact (Factor.build_related hR hatom f).bind fun _ _ _ _ h => .pure (.factor h)
  | multiply t negated f =>
    rw [Term.build]
    exact (Term.build_related hR hatom t).bind fun _ _ _ _ ht =>
      (Factor.build_related hR hatom f).bind fun _ _ _ hV hf =>
        .pure (.multiply (Term.related_imp (fun _ _ => hR hV) ht) hf)
  | divide t negated f =>
    rw [Term.build]
    exact (Term.build_related hR hatom t).bind fun _ _ _ _ ht =>
      (Factor.build_related hR hatom f).bind fun _ _ _ hV hf =>
        .pure (.divide (Term.related_imp (fun _ _ => hR hV) ht) hf)

/-- Leaves that are built in two runs are related as those of single atoms are. -/
theorem Tree.build_related {W : Pairing}
    (hR : ∀ {W V : Pairing} {e e'}, W ≤ V → R W e e' → R V e e')
    (hatom : ∀ (W : Pairing) (a : Atom), Couples W a.build a.build R) (s : Tree Atom) :
    Couples W (Tree.build s) (Tree.build s)
      fun V => Sum.Related (Factor.Related (Primary.Related (R V))) := by
  cases s with
  | term negated t =>
    rw [Tree.build]
    exact (Term.build_related hR hatom t).bind fun _ _ _ _ h => .pure (.term h)
  | add s sign t =>
    rw [Tree.build]
    exact (Tree.build_related hR hatom s).bind fun _ _ _ _ hs =>
      (Term.build_related hR hatom t).bind fun _ _ _ hV ht =>
        .pure (.add (Tree.related_imp (fun _ _ => hR hV) hs) ht)

end

theorem Tree.build_couples (s : Tree Atom) :
    Couples W (Tree.build s) (Tree.build s) Tree.Alike :=
  Tree.build_related (R := Expr.Alike) .mono (fun _ a => Atom.build_couples a) s

end Build

/-! ## Products and sums without powers -/

theorem signedOperand_couples (negated : Bool) {e e' : Expr} (he : Expr.Alike W e e') :
    Couples W (signedOperand negated e) (signedOperand negated e') Expr.Alike :=
  .ite .rfl (fun _ => neg_couples he) fun _ => .pure he

theorem product_couples {factors factors' divisors divisors' : List Expr}
    (hf : List.Forall₂ (Expr.Alike W) factors factors')
    (hx : List.Forall₂ (Expr.Alike W) divisors divisors') :
    Couples W (productOf factors divisors) (productOf factors' divisors') Expr.Alike := by
  have hp := ofProduct_couples hf hx
  cases hf with
  | nil => exact hp
  | cons he hf =>
    cases hf with
    | cons _ _ => exact hp
    | nil =>
      cases hx with
      | cons _ _ => exact hp
      | nil => exact .pure he

theorem sum_couples {terms terms' : SignedTerms} (ht : List.Forall₂ (AlikeTerm W) terms terms') :
    Couples W (sumOf terms) (sumOf terms') Expr.Alike := by
  have hs := ofSum_couples ht
  cases ht with
  | nil => exact hs
  | @cons p p' terms terms' hp ht =>
    obtain ⟨e, sign⟩ := p
    obtain ⟨e', sign'⟩ := p'
    obtain ⟨he, rfl⟩ := hp
    cases sign with
    | minus => exact hs
    | plus =>
      cases ht with
      | cons _ _ => exact hs
      | nil => exact .pure he

theorem Term.operands_couples {t t' : Term Expr} (h : t.Related (Expr.Alike W) t') :
    Couples W t.operands t'.operands fun V p p' =>
      List.Forall₂ (Expr.Alike V) p.1 p'.1 ∧ List.Forall₂ (Expr.Alike V) p.2 p'.2 := by
  induction h with
  | factor he => exact .pure ⟨.cons he .nil, .nil⟩
  | multiply _ he ih =>
    exact ih.bind fun _ _ _ hV hp => (signedOperand_couples _ (he.mono hV)).bind
      fun U _ _ hU he => .pure ⟨List.rel_append (hp.1.imp fun _ _ => .mono hU) (.cons he .nil),
        hp.2.imp fun _ _ => .mono hU⟩
  | divide _ he ih =>
    exact ih.bind fun _ _ _ hV hp => (signedOperand_couples _ (he.mono hV)).bind
      fun U _ _ hU he => .pure ⟨hp.1.imp fun _ _ => .mono hU,
        List.rel_append (hp.2.imp fun _ _ => .mono hU) (.cons he .nil)⟩

theorem Term.product_couples {t t' : Term Expr} (h : t.Related (Expr.Alike W) t') :
    Couples W t.product t'.product Expr.Alike :=
  (Term.operands_couples h).bind fun _ _ _ _ hp => Grammar.product_couples hp.1 hp.2

theorem Sum.addends_couples {s s' : Sum Expr} (h : s.Related (Expr.Alike W) s') :
    Couples W s.addends s'.addends fun V => List.Forall₂ (AlikeTerm V) := by
  induction h with
  | term ht => exact (Term.product_couples ht).bind fun _ _ _ _ he => .pure (.cons ⟨he, rfl⟩ .nil)
  | add _ ht ih =>
    exact ih.bind fun _ _ _ hV hts =>
      (Term.product_couples (ht.imp fun _ _ => .mono hV)).bind fun U _ _ hU he =>
        .pure (List.rel_append (hts.imp fun _ _ => .mono hU) (.cons ⟨he, rfl⟩ .nil))

theorem Sum.total_couples {s s' : Sum Expr} (h : s.Related (Expr.Alike W) s') :
    Couples W s.total s'.total Expr.Alike :=
  (Sum.addends_couples h).bind fun _ _ _ _ ht => sum_couples ht

/-! ## Powers and groups -/

section Check

variable {check check' : Nat → Build Unit}

/-- The checks are coupled, those of the first from a depth on with those of the second from another
depth on. -/
abbrev ChecksCouple (check check' : Nat → Build Unit) (depth depth' : Nat) : Prop :=
  ∀ (W : Pairing) (n : Nat), Couples W (check (depth + n)) (check' (depth' + n)) fun _ _ _ => True

theorem ChecksCouple.succ {depth depth' : Nat} (h : ChecksCouple check check' depth depth') :
    ChecksCouple check check' (depth + 1) (depth' + 1) := fun W n => by
  rw [Nat.add_assoc, Nat.add_assoc]
  exact h W (1 + n)

section Heights

variable (hcheck : ∀ (W : Pairing) (n : Nat), Couples W (check n) (check' n) fun _ _ _ => True)

include hcheck

theorem Factor.raise_couples {f f' : Factor Expr} (h : f.Related (Expr.Alike W) f') :
    Couples W (f.raise check) (f'.raise check') Expr.Alike := by
  induction h with
  | operand he => exact .pure he
  | power hb _ ih =>
    refine ih.bind fun _ _ _ hV he => (signedOperand_couples _ he).bind fun _ _ _ hU he => ?_
    refine (ofPower_couples (hb.mono (hV.trans hU)) he).bind fun _ p p' _ hp => ?_
    rw [height_congr hp.beq]
    exact (hcheck _ _).bind fun _ _ _ hT _ => .pure (hp.mono hT)

theorem Term.raise_couples {t t' : Term (Factor Expr)}
    (h : t.Related (Factor.Related (Expr.Alike W)) t') :
    Couples W (t.raise check) (t'.raise check') fun V => Term.Related (Expr.Alike V) := by
  induction t generalizing W t' with
  | factor f =>
    cases h with
    | factor hf => exact (Factor.raise_couples hcheck hf).bind fun _ _ _ _ he => .pure (.factor he)
  | multiply t negated f ih =>
    cases h with
    | multiply ht hf =>
      refine (Factor.raise_couples hcheck hf).bind fun V _ _ hV he => ?_
      exact (ih (ht.imp fun _ _ h => h.imp fun _ _ => .mono hV)).bind fun _ _ _ hU ht =>
        .pure (.multiply ht (he.mono hU))
  | divide t negated f ih =>
    cases h with
    | divide ht hf =>
      refine (Factor.raise_couples hcheck hf).bind fun V _ _ hV he => ?_
      exact (ih (ht.imp fun _ _ h => h.imp fun _ _ => .mono hV)).bind fun _ _ _ hU ht =>
        .pure (.divide ht (he.mono hU))

theorem Sum.raise_couples {s s' : Sum (Factor Expr)}
    (h : s.Related (Factor.Related (Expr.Alike W)) s') :
    Couples W (s.raise check) (s'.raise check') fun V => Sum.Related (Expr.Alike V) := by
  induction s generalizing W s' with
  | term negated t =>
    cases h with
    | term ht => exact (Term.raise_couples hcheck ht).bind fun _ _ _ _ ht => .pure (.term ht)
  | add s sign t ih =>
    cases h with
    | add hs ht =>
      refine (Term.raise_couples hcheck ht).bind fun V _ _ hV ht => ?_
      exact (ih (hs.imp fun _ _ h => h.imp fun _ _ => .mono hV)).bind fun _ _ _ hU hs =>
        .pure (.add hs (ht.imp fun _ _ => .mono hU))

theorem Sum.combine_couples {s s' : Sum (Factor Expr)}
    (h : s.Related (Factor.Related (Expr.Alike W)) s') :
    Couples W (s.combine check) (s'.combine check') Expr.Alike := by
  refine (Sum.raise_couples hcheck h).bind fun _ _ _ _ h =>
    (Sum.total_couples h).bind fun _ e e' _ he => ?_
  rw [height_congr he.beq]
  exact (hcheck _ _).bind fun _ _ _ hV _ => .pure (he.mono hV)

end Heights

mutual

theorem Primary.resolve_couples {W : Pairing}
    (hcheck : ∀ (W : Pairing) (n : Nat), Couples W (check n) (check' n) fun _ _ _ => True)
    {depth depth' : Nat} (hdepth : ChecksCouple check check' depth depth') (p : Primary Expr)
    {p' : Primary Expr} (h : Primary.Alike W p p') :
    Couples W (p.resolve check depth) (p'.resolve check' depth') Expr.Alike := by
  cases p with
  | leaf e => cases h with | leaf he => rw [Primary.resolve, Primary.resolve]; exact .pure he
  | group s =>
    cases h with
    | group hs =>
      rw [Primary.resolve, Primary.resolve]
      exact (hdepth W 1).bind fun _ _ _ hV _ =>
        (Tree.groups_couples hcheck hdepth.succ s (Tree.Alike.mono hV hs)).bind fun _ _ _ _ hs =>
          Sum.combine_couples hcheck hs

theorem Factor.groups_couples {W : Pairing}
    (hcheck : ∀ (W : Pairing) (n : Nat), Couples W (check n) (check' n) fun _ _ _ => True)
    {depth depth' : Nat} (hdepth : ChecksCouple check check' depth depth')
    (f : Factor (Primary Expr)) {f' : Factor (Primary Expr)} (h : f.Related (Primary.Alike W) f') :
    Couples W (f.groups check depth) (f'.groups check' depth')
      fun V => Factor.Related (Expr.Alike V) := by
  cases f with
  | operand p =>
    cases h with
    | operand hp =>
      rw [Factor.groups, Factor.groups]
      exact (Primary.resolve_couples hcheck hdepth p hp).bind fun _ _ _ _ he => .pure (.operand he)
  | power p negated f =>
    cases h with
    | power hp hf =>
      rw [Factor.groups, Factor.groups]
      exact (Primary.resolve_couples hcheck hdepth p hp).bind fun _ _ _ hV he =>
        (Factor.groups_couples hcheck hdepth f (Factor.related_imp (fun _ _ => .mono hV) hf)).bind
          fun _ _ _ hU hf => .pure (.power (he.mono hU) hf)

theorem Term.groups_couples {W : Pairing}
    (hcheck : ∀ (W : Pairing) (n : Nat), Couples W (check n) (check' n) fun _ _ _ => True)
    {depth depth' : Nat} (hdepth : ChecksCouple check check' depth depth')
    (t : Term (Factor (Primary Expr))) {t' : Term (Factor (Primary Expr))}
    (h : t.Related (Factor.Related (Primary.Alike W)) t') :
    Couples W (t.groups check depth) (t'.groups check' depth')
      fun V => Term.Related (Factor.Related (Expr.Alike V)) := by
  cases t with
  | factor f =>
    cases h with
    | factor hf =>
      rw [Term.groups, Term.groups]
      exact (Factor.groups_couples hcheck hdepth f hf).bind fun _ _ _ _ hf => .pure (.factor hf)
  | multiply t negated f =>
    cases h with
    | multiply ht hf =>
      rw [Term.groups, Term.groups]
      exact (Term.groups_couples hcheck hdepth t ht).bind fun _ _ _ hV ht =>
        (Factor.groups_couples hcheck hdepth f (Factor.related_imp (fun _ _ => .mono hV) hf)).bind
          fun _ _ _ hU hf =>
            .pure (.multiply (ht.imp fun _ _ h => h.imp fun _ _ => .mono hU) hf)
  | divide t negated f =>
    cases h with
    | divide ht hf =>
      rw [Term.groups, Term.groups]
      exact (Term.groups_couples hcheck hdepth t ht).bind fun _ _ _ hV ht =>
        (Factor.groups_couples hcheck hdepth f (Factor.related_imp (fun _ _ => .mono hV) hf)).bind
          fun _ _ _ hU hf =>
            .pure (.divide (ht.imp fun _ _ h => h.imp fun _ _ => .mono hU) hf)

theorem Tree.groups_couples {W : Pairing}
    (hcheck : ∀ (W : Pairing) (n : Nat), Couples W (check n) (check' n) fun _ _ _ => True)
    {depth depth' : Nat} (hdepth : ChecksCouple check check' depth depth') (s : Tree Expr)
    {s' : Tree Expr} (h : Tree.Alike W s s') :
    Couples W (Tree.groups check depth s) (Tree.groups check' depth' s')
      fun V => Sum.Related (Factor.Related (Expr.Alike V)) := by
  cases s with
  | term negated t =>
    cases h with
    | term ht =>
      rw [Tree.groups, Tree.groups]
      exact (Term.groups_couples hcheck hdepth t ht).bind fun _ _ _ _ ht => .pure (.term ht)
  | add s sign t =>
    cases h with
    | add hs ht =>
      rw [Tree.groups, Tree.groups]
      exact (Tree.groups_couples hcheck hdepth s hs).bind fun _ _ _ hV hs =>
        (Term.groups_couples hcheck hdepth t (Term.related_imp (fun _ _ => .mono hV) ht)).bind
          fun _ _ _ hU ht =>
            .pure (.add (hs.imp fun _ _ h => h.imp fun _ _ => .mono hU) ht)

end

end Check

end Grammar

/-! ## Texts -/

/-- A limit is checked alike. -/
theorem checkLevels_couples (source : String) (limit : Int) (levels : Nat) :
    Couples W (Passes.checkLevels source limit levels) (Passes.checkLevels source limit levels)
      fun _ _ _ => True :=
  .ite .rfl (fun _ => .throw rfl) fun _ => .pure trivial

namespace Expr

/-- **A text is parsed to alike expressions.** -/
theorem parse_couples (limit : Int) (source : String) :
    Couples W (parse limit source) (parse limit source) Alike := by
  have hcheck (W : Pairing) (n : Nat) := checkLevels_couples (W := W) source limit n
  cases htokens : tokenize source with
  | error e =>
    rw [parse, htokens]
    exact .throw rfl
  | ok tokens =>
    obtain ⟨s, rfl⟩ := Grammar.exists_tree_of_tokenize htokens
    rw [Grammar.parse_eq_actUnder htokens]
    exact (Grammar.Tree.build_couples s).bind fun _ _ _ _ hs => (hcheck _ 0).bind
      fun _ _ _ hV _ => (Grammar.Tree.groups_couples hcheck (fun W n => hcheck W (0 + n)) _
        (hs.mono hV)).bind fun _ _ _ _ hs => Grammar.Sum.combine_couples hcheck hs

end Expr

theorem Num.parse_couples (source : String) :
    Couples W (Num.parse source) (Num.parse source) Num.Alike := by
  unfold Num.parse
  split
  · exact ofFraction_couples _ _
  · exact .throw rfl

end ExactAlgebra
