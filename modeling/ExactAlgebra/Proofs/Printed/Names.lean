import ExactAlgebra.Proofs.Canonical.Draft
import ExactAlgebra.Proofs.Grammar.Promises
import ExactAlgebra.Proofs.Grammar.Refinement
import ExactAlgebra.Proofs.Hereditary
import ExactAlgebra.Proofs.Printed
import ExactAlgebra.Proofs.Written.Words

/-!
# Names of variables

No construction brings in a variable, and the variables of a text are single letters; so all
variables of a parsed expression are named by single letters.

* `ofPower_lettered`, `ofProduct_lettered`, `ofSum_lettered`, `neg_lettered`: the constructions.
* `Tree.promises_lettered`: the actions on a tree with letters as variables.
* `parse_lettered`: parsing.
-/

namespace ExactAlgebra

open Build Passes ExactAlgebra.Expr

/-! ## Constructions -/

namespace Expr

theorem Lettered.num (n : Num) : (Expr.num n).Lettered := by
  rw [Lettered, names]
  exact List.forall_mem_nil _

theorem lettered_power_iff {age : Nat} {b e : Expr} :
    (Expr.power age b e).Lettered ↔ b.Lettered ∧ e.Lettered := by
  rw [Lettered, names, List.forall_mem_append]
  rfl

theorem lettered_product_iff {age : Nat} {c : Num} {factors : List (Expr × Expr)} :
    (Expr.product age c factors).Lettered ↔ ∀ p ∈ factors, p.1.Lettered ∧ p.2.Lettered := by
  refine ⟨Lettered.product, fun h => ?_⟩
  rw [Lettered, names]
  induction factors with
  | nil => exact List.forall_mem_nil _
  | cons p factors ih =>
    rw [List.forall_mem_cons] at h
    rw [factorsNames, List.forall_mem_append, List.forall_mem_append]
    exact ⟨h.1, ih h.2⟩

theorem lettered_sum_iff {age : Nat} {c : Num} {summands : List (Expr × Num)} :
    (Expr.sum age c summands).Lettered ↔ ∀ p ∈ summands, p.1.Lettered := by
  refine ⟨Lettered.sum, fun h => ?_⟩
  rw [Lettered, names]
  induction summands with
  | nil => exact List.forall_mem_nil _
  | cons p summands ih =>
    rw [List.forall_mem_cons] at h
    rw [summandsNames, List.forall_mem_append]
    exact ⟨h.1, ih h.2⟩

/-- The construction returns nothing but expressions with single letters as names. -/
def MakesLettered (m : Build Expr) : Prop := m.Ensures Lettered fun _ => True

/-- The names of an expression are those of its parts. -/
theorem hereditary_lettered : Hereditary Lettered Lettered where
  num := .num
  power age b e := by
    rw [lettered_power_iff]
    refine and_congr_left fun _ => ⟨.inr, fun h => h.elim (fun hn => ?_) id⟩
    rcases b.num_or with ⟨n, rfl⟩ | hb
    · exact .num n
    · rw [hb] at hn
      cases hn
  product _ _ _ := lettered_product_iff
  sum _ _ _ := lettered_sum_iff
  base _ := id
  key _ h _ := h

theorem ofPower_lettered {b e : Expr} (hb : b.Lettered) (he : e.Lettered) :
    MakesLettered (ofPower b e) := hereditary_lettered.ofPower (.inr hb) he

theorem ofSum_lettered {terms : SignedTerms} (ht : ∀ p ∈ terms, p.1.Lettered) :
    MakesLettered (ofSum terms) := hereditary_lettered.ofSum ht

theorem ofProduct_lettered {factors divisors : List Expr} (hf : ∀ e ∈ factors, e.Lettered)
    (hd : ∀ e ∈ divisors, e.Lettered) : MakesLettered (ofProduct factors divisors) :=
  hereditary_lettered.ofProduct hf hd

theorem neg_lettered {e : Expr} (h : e.Lettered) : MakesLettered e.neg := hereditary_lettered.neg h

end Expr

/-! ## Trees -/

namespace Grammar

section Trees

variable (check : Nat → Build Unit)

/-- The variables among the tokens are letters. -/
def Spelled (w : List Token) : Prop := ∀ c, .atom (.variable c) ∈ w → Text.isLetter c = true

theorem spelled_append {w w' : List Token} : Spelled (w ++ w') ↔ Spelled w ∧ Spelled w' := by
  simp only [Spelled, List.mem_append, or_imp, forall_and]

theorem spelled_cons {t : Token} {w : List Token} (h : Spelled (t :: w)) : Spelled w :=
  fun c hc => h c (List.mem_cons_of_mem t hc)

theorem signedOperand_lettered (negated : Bool) {e : Expr} (h : e.Lettered) :
    MakesLettered (signedOperand negated e) := .ite (fun _ => neg_lettered h) fun _ => .pure h

theorem product_lettered {factors divisors : List Expr} (hf : ∀ e ∈ factors, e.Lettered)
    (hd : ∀ e ∈ divisors, e.Lettered) : MakesLettered (productOf factors divisors) := by
  unfold productOf
  split
  · exact .pure (hf _ List.mem_cons_self)
  · exact ofProduct_lettered hf hd

theorem checkedSum_lettered {terms : SignedTerms} (h : ∀ p ∈ terms, p.1.Lettered) :
    MakesLettered (checkedSum check terms) := by
  have hsum : MakesLettered (sumOf terms) := by
    unfold sumOf
    split
    · exact .pure (h _ List.mem_cons_self)
    · exact ofSum_lettered h
  exact hsum.bind fun e he => (ensures_true _).bind fun _ _ => .pure he

theorem checkedPower_lettered {b e : Expr} (hb : b.Lettered) (negated : Bool) (he : e.Lettered) :
    MakesLettered (checkedPower check b negated e) :=
  (signedOperand_lettered negated he).bind fun _ he' => (ofPower_lettered hb he').bind fun _ hp =>
    (ensures_true _).bind fun _ _ => .pure hp

mutual

theorem Primary.promises_lettered (p : Primary Atom) {w : List Token} (h : p.Writes w)
    (hw : Spelled w) :
    p.Promises check (fun _ => True) (Atom.Promises fun _ => True) Expr.Lettered := by
  cases p with
  | leaf a =>
    rw [Primary.Writes] at h
    subst h
    refine .leaf ?_
    cases a with
    | number n => exact hereditary_lettered.number _
    | «variable» c =>
      refine .pure fun name hname => ⟨c, hw c List.mem_cons_self, ?_⟩
      rw [names] at hname
      exact List.mem_singleton.mp hname
  | group s =>
    rw [Primary.Writes] at h
    obtain ⟨w', hs, rfl⟩ := h
    exact .group (Tree.promises_lettered s hs (spelled_append.mp (spelled_cons hw)).1)
      fun terms ht => checkedSum_lettered check ht

theorem Factor.promises_lettered (f : Factor (Primary Atom)) {w : List Token} (h : f.Writes w)
    (hw : Spelled w) :
    f.Promises check (fun _ => True)
      (Primary.Promises check (fun _ => True) (Atom.Promises fun _ => True)) Expr.Lettered := by
  cases f with
  | operand p =>
    rw [Factor.Writes] at h
    exact .operand (Primary.promises_lettered p h hw)
  | power p negated f =>
    rw [Factor.Writes] at h
    obtain ⟨wp, signs, wf, hp, hf, -, rfl⟩ := h
    obtain ⟨hwp, hw⟩ := spelled_append.mp hw
    exact .power (Primary.promises_lettered p hp hwp)
      (Factor.promises_lettered f hf (spelled_append.mp (spelled_cons hw)).2)
      fun b e hb he => checkedPower_lettered check hb negated he

theorem Term.promises_lettered (t : Term (Factor (Primary Atom))) {w : List Token} (h : t.Writes w)
    (hw : Spelled w) :
    t.Promises (fun _ => True) (Factor.Promises check (fun _ => True)
      (Primary.Promises check (fun _ => True) (Atom.Promises fun _ => True)))
      fun factors divisors => (∀ e ∈ factors, e.Lettered) ∧ ∀ e ∈ divisors, e.Lettered := by
  cases t with
  | factor f =>
    rw [Term.Writes] at h
    exact .factor (Factor.promises_lettered f h hw) fun e he =>
      ⟨by simpa using he, List.forall_mem_nil _⟩
  | multiply t negated f =>
    rw [Term.Writes] at h
    obtain ⟨wt, wf, ht, hf, hw'⟩ := h
    obtain ⟨hwt, hwf⟩ : Spelled wt ∧ Spelled wf := by
      rcases hw' with ⟨signs, -, rfl⟩ | ⟨-, rfl⟩
      · obtain ⟨hwt, hw⟩ := spelled_append.mp hw
        exact ⟨hwt, (spelled_append.mp (spelled_cons hw)).2⟩
      · exact spelled_append.mp hw
    exact .multiply (Term.promises_lettered t ht hwt) (Factor.promises_lettered f hf hwf)
      fun factors divisors e hI he => (signedOperand_lettered negated he).imp fun r hr =>
        ⟨List.forall_mem_append.mpr ⟨hI.1, by simpa using hr⟩, hI.2⟩
  | divide t negated f =>
    rw [Term.Writes] at h
    obtain ⟨wt, signs, wf, ht, hf, -, rfl⟩ := h
    obtain ⟨hwt, hw⟩ := spelled_append.mp hw
    exact .divide (Term.promises_lettered t ht hwt)
      (Factor.promises_lettered f hf (spelled_append.mp (spelled_cons hw)).2)
      fun factors divisors e hI he => (signedOperand_lettered negated he).imp fun r hr =>
        ⟨hI.1, List.forall_mem_append.mpr ⟨hI.2, by simpa using hr⟩⟩

theorem Tree.promises_lettered (s : Tree Atom) {w : List Token} (h : Tree.Writes s w)
    (hw : Spelled w) :
    Tree.Promises check (fun _ => True) (Atom.Promises fun _ => True) s
      fun terms => ∀ p ∈ terms, p.1.Lettered := by
  cases s with
  | term negated t =>
    rw [Tree.Writes] at h
    obtain ⟨signs, wt, ht, -, rfl⟩ := h
    exact .term (Term.promises_lettered t ht (spelled_append.mp hw).2) fun factors divisors hI =>
      (product_lettered hI.1 hI.2).imp fun e he => by simpa using he
  | add s sign t =>
    rw [Tree.Writes] at h
    obtain ⟨ws, signs, wt, hs, ht, -, -, rfl⟩ := h
    obtain ⟨hws, hw⟩ := spelled_append.mp hw
    exact .add (Tree.promises_lettered s hs hws)
      (Term.promises_lettered t ht (spelled_append.mp hw).2) fun terms factors divisors hs hI =>
      (product_lettered hI.1 hI.2).imp fun e he =>
        List.forall_mem_append.mpr ⟨hs, by simpa using he⟩

end

end Trees

/-! ## Parsing -/

/-- **The variables of a parsed expression are named by single letters.** -/
theorem parse_lettered (limit : Int) (source : String) :
    MakesLettered (Expr.parse limit source) := by
  rcases htokens : tokenize source with fault | tokens
  · rw [Expr.parse, htokens]
    exact .throw trivial
  · obtain ⟨s, hs, -⟩ := exists_readAs htokens
    rw [parse_eq_actUnder (tokenize_of_readAs hs)]
    obtain ⟨raw, k, hcut, hw⟩ := hs
    have hspelled : Spelled (raw ++ List.replicate k .closing) := by
      refine spelled_append.mpr ⟨fun c hc => hcut.proper _ hc, fun c hc => ?_⟩
      cases List.eq_of_mem_replicate hc
    exact actUnder_ensures (fun _ _ => ensures_true _) (Tree.promises_lettered _ s hw hspelled)
      le_rfl fun terms h => checkedSum_lettered _ h

end Grammar

end ExactAlgebra
