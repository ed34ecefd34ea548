import ExactAlgebra.Expr.Evaluate
import ExactAlgebra.Expr.Operators
import ExactAlgebra.Expr.Simplify
import ExactAlgebra.Proofs.Canonical.Draft
import ExactAlgebra.Proofs.Grammar.Logic
import Mathlib

/-!
# What the library returns is canonical

* `Obtainable`: the expressions that a finite sequence of operations can return.
* `evaluate_canonical`, `simplify_canonical`, `parse_canonical`: the operations that go through a
  whole expression or text return canonical expressions.
* `Obtainable.canonical`: every expression that can be obtained is canonical.
-/

namespace ExactAlgebra

open ExactAlgebra.Expr Build

namespace Expr

/-! ## Operators -/

theorem apply_canonical (op : Arithmetic) {a b : Expr} (ha : a.Canonical) (hb : b.Canonical) :
    Makes (apply op a b) := by
  have hgeneral : Makes (applyGenerally op a b) := by
    cases op with
    | add => exact ofSum_canonical (by simp [ha, hb])
    | subtract => exact ofSum_canonical (by simp [ha, hb])
    | multiply => exact ofProduct_canonical (by simp [ha, hb]) (by simp)
    | divide => exact ofProduct_canonical (by simp [ha]) (by simp [hb])
    | power => exact ofPower_canonical ha hb
  unfold apply
  split
  next m n =>
    cases op with
    | power => exact Num.toPower_canonical m n
    | _ => exact .number _
  · exact hgeneral

theorem reciprocal_canonical {e : Expr} (h : e.Canonical) : Makes e.reciprocal := by
  have hp : Makes (ofProduct [.one] [e]) :=
    ofProduct_canonical (by simp [Canonical.one]) (by simp [h])
  cases e with
  | num n => exact .number _
  | _ => exact hp

/-! ## Substitution -/

section Substitution

variable {value : String → Option Expr} (hv : ∀ name e, value name = some e → e.Canonical)

theorem substituteFactors_canonical {factors : List (Expr × Expr)}
    (h : ∀ p ∈ factors, Makes (p.1.substitute value) ∧ Makes (p.2.substitute value)) :
    Ensures (substituteFactors value factors) (fun es => ∀ e ∈ es, e.Canonical) fun _ => True := by
  induction factors with
  | nil => exact .pure (by simp)
  | cons p factors ih =>
    obtain ⟨b, e⟩ := p
    rw [List.forall_mem_cons] at h
    obtain ⟨⟨hbase, hexponent⟩, hrest⟩ := h
    refine hbase.bind fun b' hb => hexponent.bind fun e' he => ?_
    refine (ofPower_canonical hb he).bind fun f hf => (ih hrest).bind fun fs hs => ?_
    exact .pure (List.forall_mem_cons.mpr ⟨hf, hs⟩)

theorem substituteSummands_canonical {summands : List (Expr × Num)}
    (h : ∀ p ∈ summands, Makes (p.1.substitute value)) :
    Ensures (substituteSummands value summands) (fun terms => ∀ p ∈ terms, p.1.Canonical)
      fun _ => True := by
  induction summands with
  | nil => exact .pure (by simp)
  | cons p summands ih =>
    obtain ⟨t, c⟩ := p
    rw [List.forall_mem_cons] at h
    obtain ⟨hterm, hrest⟩ := h
    refine hterm.bind fun t' ht => ?_
    have hproduct : Makes (ofProduct [t', .num c] []) :=
      ofProduct_canonical (by simp [ht, Canonical.ofNum]) (by simp)
    refine hproduct.bind fun p hp => (ih hrest).bind fun ps hs => ?_
    exact .pure (List.forall_mem_cons.mpr ⟨hp, hs⟩)

include hv in
theorem substitute_canonical (e : Expr) : Makes (e.substitute value) := by
  induction e with
  | num n => exact .pure (.ofNum n)
  | var name =>
    rw [substitute]
    split
    next e he => exact .pure (hv name e he)
    next => exact .throw trivial
  | power age b e hb he =>
    rw [substitute]
    exact hb.bind fun b' hb => he.bind fun e' he => ofPower_canonical hb he
  | product age c factors ih =>
    rw [substitute]
    refine (substituteFactors_canonical ih).bind fun fs hs => ?_
    have hall : ∀ e ∈ Expr.num c :: fs, e.Canonical := List.forall_mem_cons.mpr ⟨.ofNum c, hs⟩
    exact ofProduct_canonical hall (by simp)
  | sum age c summands ih =>
    rw [substitute]
    refine (substituteSummands_canonical ih).bind fun terms hs => ?_
    have hall : ∀ p ∈ terms ++ [(Expr.num c, Sign.plus)], p.1.Canonical :=
      List.forall_mem_append.mpr ⟨hs, by simp [Canonical.ofNum]⟩
    exact ofSum_canonical hall

end Substitution

theorem evaluate_canonical (e : Expr) {bindings : Bindings}
    (hb : ∀ p ∈ bindings, p.2.Canonical) : Makes (e.evaluate bindings) := by
  refine substitute_canonical (fun name d hd => ?_) e
  obtain ⟨p, hp, rfl⟩ := Option.map_eq_some_iff.mp hd
  exact hb p (List.mem_of_find?_eq_some hp)

/-! ## Simplification -/

theorem multiplyExponents_canonical {a b : Expr} (ha : a.Canonical) (hb : b.Canonical) :
    Makes (multiplyExponents a b) := ofProduct_canonical (by simp [ha, hb]) (by simp)

theorem distributeCoefficient_canonical {c : Num} {exponent : Expr} (he : exponent.Canonical) :
    Ensures (distributeCoefficient c exponent) (fun es => ∀ e ∈ es, e.Canonical) fun _ => True := by
  refine .ite (fun _ => .pure (by simp)) fun _ => ?_
  refine (multiplyExponents_canonical .one he).bind fun x hx => ?_
  exact (ofPower_canonical (.ofNum c) hx).bind fun p hp => .pure (by simp [hp])

theorem distributeAll_canonical {factors : List (Expr × Expr)} {exponent : Expr}
    (he : exponent.Canonical) (hf : ∀ p ∈ factors, p.2.Canonical)
    (ih : ∀ p ∈ factors, ∀ {x : Expr}, x.Canonical → Makes (distribute p.1 x)) :
    Ensures (distributeAll factors exponent) (fun es => ∀ e ∈ es, e.Canonical) fun _ => True := by
  induction factors with
  | nil => exact .pure (by simp)
  | cons p factors ihl =>
    obtain ⟨b, inner⟩ := p
    rw [List.forall_mem_cons] at hf ih
    refine (multiplyExponents_canonical hf.1 he).bind fun x hx => (ih.1 hx).bind fun d hd => ?_
    refine (ihl hf.2 ih.2).bind fun ds hs => ?_
    exact .pure (List.forall_mem_cons.mpr ⟨hd, hs⟩)

theorem distribute_canonical {base exponent : Expr} (hb : base.Canonical)
    (he : exponent.Canonical) : Makes (distribute base exponent) := by
  induction hb generalizing exponent with
  | num n h => rw [distribute]; exact ofPower_canonical (.num n h) he
  | var name => rw [distribute]; exact ofPower_canonical (.var name) he
  | power age _ hinner _ ih _ =>
    rw [distribute]
    exact (multiplyExponents_canonical hinner he).bind fun x hx => ih hx
  | @product age c factors _ _ hinner _ ih _ =>
    rw [distribute]
    have hall : Ensures (distributeAll factors exponent) (fun es => ∀ e ∈ es, e.Canonical)
        fun _ => True := distributeAll_canonical he hinner fun p hp x hx => ih p hp hx
    refine (distributeCoefficient_canonical he).bind fun first h₁ => hall.bind fun rest h₂ => ?_
    exact ofProduct_canonical (List.forall_mem_append.mpr ⟨h₁, h₂⟩) (by simp)
  | sum age hc ht hr form => rw [distribute]; exact ofPower_canonical (.sum age hc ht hr form) he

theorem simplifyFactors_canonical {factors : List (Expr × Expr)}
    (h : ∀ p ∈ factors, Makes p.1.simplify ∧ Makes p.2.simplify) :
    Ensures (simplifyFactors factors) (fun es => ∀ e ∈ es, e.Canonical) fun _ => True := by
  induction factors with
  | nil => exact .pure (by simp)
  | cons p factors ih =>
    obtain ⟨b, e⟩ := p
    rw [List.forall_mem_cons] at h
    obtain ⟨⟨hbase, hexponent⟩, hrest⟩ := h
    refine hbase.bind fun b' hb => hexponent.bind fun e' he => ?_
    refine (distribute_canonical hb he).bind fun f hf => (ih hrest).bind fun fs hs => ?_
    exact .pure (List.forall_mem_cons.mpr ⟨hf, hs⟩)

theorem simplifySummands_canonical {summands : List (Expr × Num)}
    (h : ∀ p ∈ summands, Makes p.1.simplify) :
    Ensures (simplifySummands summands) (fun terms => ∀ p ∈ terms, p.1.Canonical)
      fun _ => True := by
  induction summands with
  | nil => exact .pure (by simp)
  | cons p summands ih =>
    obtain ⟨t, c⟩ := p
    rw [List.forall_mem_cons] at h
    obtain ⟨hterm, hrest⟩ := h
    refine hterm.bind fun t' ht => ?_
    have hproduct : Makes (ofProduct [t', .num c] []) :=
      ofProduct_canonical (by simp [ht, Canonical.ofNum]) (by simp)
    refine hproduct.bind fun p hp => (ih hrest).bind fun ps hs => ?_
    exact .pure (List.forall_mem_cons.mpr ⟨hp, hs⟩)

theorem simplify_canonical (e : Expr) : Makes e.simplify := by
  induction e with
  | num n => exact .pure (.ofNum n)
  | var name => exact .pure (.var name)
  | power age b e hb he =>
    rw [simplify]
    exact hb.bind fun b' hb => he.bind fun e' he => distribute_canonical hb he
  | product age c factors ih =>
    rw [simplify]
    refine (simplifyFactors_canonical ih).bind fun fs hs => ?_
    have hall : ∀ e ∈ Expr.num c :: fs, e.Canonical := List.forall_mem_cons.mpr ⟨.ofNum c, hs⟩
    exact ofProduct_canonical hall (by simp)
  | sum age c summands ih =>
    rw [simplify]
    refine (simplifySummands_canonical ih).bind fun terms hs => ?_
    have hall : ∀ p ∈ terms ++ [(Expr.num c, Sign.plus)], p.1.Canonical :=
      List.forall_mem_append.mpr ⟨hs, by simp [Canonical.ofNum]⟩
    exact ofSum_canonical hall

end Expr

/-! ## Parsing -/

theorem Atom.build_canonical (a : Atom) : Makes a.build := by
  cases a with
  | number n => rw [build_number]; exact .number _
  | «variable» name => exact .pure (.var _)

def ensuresLogic : Grammar.Logic Unit where
  Holds _ m P := m.Ensures (P ()) fun _ => True
  pure := .pure
  throw := .throw trivial
  bind h hf := h.bind fun a => hf () a le_rfl

theorem canonical_keeps : ensuresLogic.Keeps fun _ e => e.Canonical where
  mono _ := id
  atom _ a := a.build_canonical
  neg := neg_canonical
  ofPower := ofPower_canonical
  ofProduct := ofProduct_canonical
  ofSum := ofSum_canonical

namespace Expr

theorem parse_canonical (limit : Int) (source : String) : Makes (parse limit source) :=
  canonical_keeps.parse source limit ()

/-! ## Every sequence of operations -/

/-- The parts of a node, numbers included. -/
def parts : Expr → List Expr
  | .num _ => []
  | .var _ => []
  | .power _ base exponent => [base, exponent]
  | .product _ c factors => .num c :: factors.flatMap fun p => [p.1, p.2]
  | .sum _ c summands => .num c :: summands.flatMap fun p => [p.1, .num p.2]

theorem Canonical.of_mem_parts {e d : Expr} (h : e.Canonical) (hd : d ∈ e.parts) :
    d.Canonical := by
  cases h with
  | num n h => exact nomatch hd
  | var name => exact nomatch hd
  | power age hb he form =>
    simp only [parts, List.mem_cons, List.not_mem_nil, or_false] at hd
    rcases hd with rfl | rfl
    · exact hb
    · exact he
  | product age hc hb he form =>
    simp only [parts, List.mem_cons, List.mem_flatMap, List.not_mem_nil, or_false] at hd
    rcases hd with rfl | ⟨p, hp, rfl | rfl⟩
    · exact .ofNum _
    · exact hb p hp
    · exact he p hp
  | sum age hc ht hr form =>
    simp only [parts, List.mem_cons, List.mem_flatMap, List.not_mem_nil, or_false] at hd
    rcases hd with rfl | ⟨p, hp, rfl | rfl⟩
    · exact .ofNum _
    · exact ht p hp
    · exact .ofNum _

/-- The expressions that a finite sequence of operations can return, whatever supply each operation
starts from. -/
inductive Obtainable : Expr → Prop where
  | num (n : Num) : Obtainable (.num n)
  | var (name : String) : Obtainable (.var name)
  | part {e d : Expr} (he : Obtainable e) (h : d ∈ e.parts) : Obtainable d
  | power {base exponent r : Expr} {s : Supply} (hb : Obtainable base) (he : Obtainable exponent)
    (h : (ofPower base exponent s).1 = .ok r) : Obtainable r
  | product {factors divisors : List Expr} {r : Expr} {s : Supply}
    (hf : ∀ e ∈ factors, Obtainable e) (hd : ∀ e ∈ divisors, Obtainable e)
    (h : (ofProduct factors divisors s).1 = .ok r) : Obtainable r
  | sum {terms : SignedTerms} {r : Expr} {s : Supply} (ht : ∀ p ∈ terms, Obtainable p.1)
    (h : (ofSum terms s).1 = .ok r) : Obtainable r
  | neg {e r : Expr} {s : Supply} (he : Obtainable e) (h : (e.neg s).1 = .ok r) : Obtainable r
  | apply {op : Arithmetic} {a b r : Expr} {s : Supply} (ha : Obtainable a) (hb : Obtainable b)
    (h : (apply op a b s).1 = .ok r) : Obtainable r
  | reciprocal {e r : Expr} {s : Supply} (he : Obtainable e) (h : (e.reciprocal s).1 = .ok r) :
    Obtainable r
  | separate {age : Nat} {c n : Num} {factors : List (Expr × Expr)} {r : Expr} {s : Supply}
    (he : Obtainable (.product age c factors)) (h : (separate age c factors s).1 = .ok (n, r)) :
    Obtainable r
  | parse {limit : Int} {source : String} {r : Expr} {s : Supply}
    (h : (parse limit source s).1 = .ok r) : Obtainable r
  | evaluate {e r : Expr} {bindings : Bindings} {s : Supply} (he : Obtainable e)
    (hb : ∀ p ∈ bindings, Obtainable p.2) (h : (e.evaluate bindings s).1 = .ok r) : Obtainable r
  | simplify {e r : Expr} {s : Supply} (he : Obtainable e) (h : (e.simplify s).1 = .ok r) :
    Obtainable r

/-- Obtainable expressions are canonical, by the lemmas about the single operations. -/
theorem Obtainable.canonical {e : Expr} (h : Obtainable e) : e.Canonical := by
  induction h with
  | num n => exact .ofNum n
  | var name => exact .var name
  | part _ h ih => exact ih.of_mem_parts h
  | power _ _ h hb he => exact (ofPower_canonical hb he).of_fst h
  | product _ _ h hf hd => exact (ofProduct_canonical hf hd).of_fst h
  | sum _ h ht => exact (ofSum_canonical ht).of_fst h
  | neg _ h he => exact (neg_canonical he).of_fst h
  | apply _ _ h ha hb => exact (apply_canonical _ ha hb).of_fst h
  | reciprocal _ h he => exact (reciprocal_canonical he).of_fst h
  | separate _ h he =>
    cases he with
    | product age hc hb hx form => exact ((separate_term hb hx form).of_fst h).1
  | parse h => exact (parse_canonical _ _).of_fst h
  | evaluate _ _ h he hb => exact (evaluate_canonical _ hb).of_fst h
  | simplify _ h _ => exact (simplify_canonical _).of_fst h

/-- **Every expression that the operations can return is canonical.** -/
theorem canonical_of_obtainable {e : Expr} (h : Obtainable e) : e.Canonical := h.canonical

/-- A variable multiplied by itself becomes a canonical power. -/
theorem canonical_square : Canonical (.power 7 (.var "x") (.num ⟨2, 6⟩)) :=
  canonical_of_obtainable (@Obtainable.product [.var "x", .var "x"] [] _ Supply.initial
    (by simp [Obtainable.var]) (by simp) (by cbv))

end Expr

end ExactAlgebra
