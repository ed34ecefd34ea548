import ExactAlgebra.Expr.Print
import ExactAlgebra.Proofs.Canonical
import ExactAlgebra.Proofs.Grammar
import ExactAlgebra.Proofs.Partial
import ExactAlgebra.Text.Letter
import Mathlib.Algebra.Order.Ring.Abs
import Mathlib.Data.Rat.Lemmas

/-!
# Printed trees

The text form of an expression is a sentence of the grammar, and so is the TeX form once its markup
is translated.  This module has the tree that the two forms write, and shows that it means the
expression, whatever a power means, as long as the exponent one changes nothing.

* `Tree.value`: the conventional reading of a tree, for a given meaning of powers.
* `Expr.interpret`: the value of an expression, for the same meaning of powers.
* `Expr.tree`: the tree that is printed.
* `value_tree`: the tree means the expression.
-/

namespace ExactAlgebra

open Partial

/-! ## Readings -/

namespace Grammar

/-- The value with its sign changed if need be. -/
def signed (negated : Bool) (x : Option ℚ) : Option ℚ := if negated then x.map (-·) else x

/-- A power of two values, for a given meaning of powers. -/
def raise (pow : ℚ → ℚ → Option ℚ) (x y : Option ℚ) : Option ℚ :=
  x.bind fun x => y.bind fun y => pow x y

section Values

variable (ρ : String → Option ℚ) (pow : ℚ → ℚ → Option ℚ)

/-- The value of a token by itself. -/
def Atom.value : Atom → Option ℚ
  | .number n => some n.value
  | .variable name => ρ (String.singleton name)

mutual

def Primary.value : Primary Atom → Option ℚ
  | .leaf a => Atom.value ρ a
  | .group s => Tree.value s

/-- The value of a factor: the minus before an exponent belongs to the whole exponent. -/
def Factor.value : Factor (Primary Atom) → Option ℚ
  | .operand p => p.value
  | .power p negated f => raise pow p.value (signed negated f.value)

def Term.value : Term (Factor (Primary Atom)) → Option ℚ
  | .factor f => f.value
  | .multiply t negated f => t.value * signed negated f.value
  | .divide t negated f => t.value * inverse (signed negated f.value)

def Tree.value : Tree Atom → Option ℚ
  | .term negated t => signed negated t.value
  | .add s sign t => Tree.value s + signed (sign = .minus) t.value

end

end Values

end Grammar

/-! ## Interpretations -/

namespace Expr

section Interpretation

variable (ρ : String → Option ℚ) (pow : ℚ → ℚ → Option ℚ)

mutual

/-- The value of an expression: the coefficient times the powers in a product, the constant plus the
terms with their coefficients in a sum. -/
def interpret : Expr → Option ℚ
  | .num n => some n.value
  | .var name => ρ name
  | .power _ b e => Grammar.raise pow b.interpret e.interpret
  | .product _ c factors => some c.value * interpretFactors factors
  | .sum _ c summands => some c.value + interpretSummands summands

def interpretFactors : List (Expr × Expr) → Option ℚ
  | [] => 1
  | (b, e) :: factors => Grammar.raise pow b.interpret e.interpret * interpretFactors factors

def interpretSummands : List (Expr × Num) → Option ℚ
  | [] => 0
  | (t, c) :: summands => some c.value * t.interpret + interpretSummands summands

end

end Interpretation

mutual

def names : Expr → List String
  | .num _ => []
  | .var name => [name]
  | .power _ b e => b.names ++ e.names
  | .product _ _ factors => factorsNames factors
  | .sum _ _ summands => summandsNames summands

def factorsNames : List (Expr × Expr) → List String
  | [] => []
  | (b, e) :: factors => b.names ++ e.names ++ factorsNames factors

def summandsNames : List (Expr × Num) → List String
  | [] => []
  | (t, _) :: summands => t.names ++ summandsNames summands

end

/-- All variables are named by single letters. -/
def Lettered (e : Expr) : Prop :=
  ∀ name ∈ e.names, ∃ c, Text.isLetter c = true ∧ name = String.singleton c

end Expr

/-! ## The printed tree -/

namespace Numeral

def ofNat (n : ℕ) : Numeral := ⟨natDigits n, none⟩

theorem value_ofNat (n : ℕ) : (ofNat n).value = n := by
  have hdecimal : Text.decimal (Nat.toDigits 10 n) = n := Nat.ofDigitChars_ten_toDigits
  rw [value, ofNat, digits, places, natDigits, Option.getD_none, List.append_nil, hdecimal]
  exact div_one _

end Numeral

namespace Grammar

def natural (n : ℕ) : Primary Atom := .leaf (.number (.ofNat n))

/-- A number without its sign, as a quotient if need be. -/
def quotient (q : ℚ) : Term (Factor (Primary Atom)) :=
  if q.den = 1 then .factor (.operand (natural q.num.natAbs))
  else .divide (.factor (.operand (natural q.num.natAbs))) false (.operand (natural q.den))

/-- A number without its sign, a quotient in brackets. -/
def magnitude (q : ℚ) : Primary Atom :=
  if q.den = 1 then natural q.num.natAbs else .group (.term false (quotient q))

def number (m : Markup) (q : ℚ) : Term (Factor (Primary Atom)) :=
  match m with
  | .text => quotient q
  | .tex => .factor (.operand (magnitude q))

/-- The factor in front of a term: one and minus one are not written. -/
def leading (q : ℚ) : List (Factor (Primary Atom)) :=
  if |q| = 1 then [] else [.operand (magnitude q)]

/-- Factors multiplied from left to right. -/
def Term.ofFactors : List (Factor (Primary Atom)) → Term (Factor (Primary Atom))
  | [] => .factor (.operand (natural 1))
  | f :: fs => fs.foldl (fun t f => .multiply t false f) (.factor f)

/-- Terms added from left to right, each with its sign. -/
def Tree.ofTerms : List (Bool × Term (Factor (Primary Atom))) → Tree Atom
  | [] => .term false (.factor (.operand (natural 0)))
  | (negated, t) :: ts => ts.foldl (fun s p => .add s (signIf p.1) p.2) (.term negated t)

end Grammar

open Grammar

namespace Expr

def letter (name : String) : Primary Atom := .leaf (.variable (name.toList.headD 'x'))

/-- A base, in brackets if it needs them. -/
def basePrimary (b : Expr) (s : Grammar.Tree Atom) : Primary Atom :=
  match b with
  | .var name => letter name
  | .num n => if b.isBareBase then natural n.value.num.natAbs else .group s
  | _ => .group s

/-- An exponent, in brackets if it needs them, and the minus before it. -/
def exponentFactor (m : Markup) (e : Expr) (s : Grammar.Tree Atom) : Bool × Factor (Primary Atom) :=
  match m, e with
  | .text, .var name => (false, .operand (letter name))
  | .text, .num n =>
    if e.isBareExponent then (n.isNegative, .operand (natural n.value.num.natAbs))
    else (false, .operand (.group s))
  | _, _ => (false, .operand (.group s))

/-- A power with an exponent other than one, given the trees of base and exponent. -/
def powerFactor (m : Markup) (b e : Expr) (base exponent : Grammar.Tree Atom) :
    Factor (Primary Atom) :=
  .power (basePrimary b base) (exponentFactor m e exponent).1 (exponentFactor m e exponent).2

/-- The constant of a sum as its last term, unless it is zero. -/
def constantTerm (m : Markup) (c : Num) : List (Bool × Grammar.Term (Factor (Primary Atom))) :=
  if c.isZero then [] else [(c.isNegative, number m c.value)]

mutual

def tree (m : Markup) : Expr → Grammar.Tree Atom
  | .num n => .term n.isNegative (number m n.value)
  | .var name => .term false (.factor (.operand (letter name)))
  | .power _ b e => .term false (.factor (powerFactor m b e (b.tree m) (e.tree m)))
  | .product _ c factors =>
    .term c.isNegative (.ofFactors (leading c.value ++ entries m factors))
  | .sum _ c summands => Tree.ofTerms (terms m summands ++ constantTerm m c)

/-- The factors that a term prints as, without a sign. -/
def chain (m : Markup) : Expr → List (Factor (Primary Atom))
  | .num n => [.operand (magnitude n.value)]
  | .var name => [.operand (letter name)]
  | .power _ b e => [powerFactor m b e (b.tree m) (e.tree m)]
  | .product _ c factors => leading c.value ++ entries m factors
  | .sum _ c summands => [.operand (.group (Tree.ofTerms (terms m summands ++ constantTerm m c)))]

def entries (m : Markup) : List (Expr × Expr) → List (Factor (Primary Atom))
  | [] => []
  | (b, e) :: factors =>
    (if e.isOne then if b.isProduct then [.operand (.group (b.tree m))] else b.chain m
      else [powerFactor m b e (b.tree m) (e.tree m)]) ++ entries m factors

def terms (m : Markup) : List (Expr × Num) → List (Bool × Grammar.Term (Factor (Primary Atom)))
  | [] => []
  | (t, c) :: summands =>
    (c.isNegative, .ofFactors (leading c.value ++ t.chain m)) :: terms m summands

end

/-! ## The printed tree means the expression -/

section Values

variable {ρ : String → Option ℚ} {pow : ℚ → ℚ → Option ℚ}

theorem signed_abs (c : Num) (x : Option ℚ) :
    signed c.isNegative (some |c.value| * x) = some c.value * x := by
  rw [Num.isNegative_eq]
  cases x with
  | none => by_cases h : c.value < 0 <;> simp [signed]
  | some x =>
    by_cases h : c.value < 0
    · simp [signed, h, abs_of_neg h]
    · simp [signed, h, abs_of_nonneg (not_lt.mp h)]

theorem signed_abs_one (c : Num) : signed c.isNegative (some |c.value|) = some c.value := by
  have := signed_abs c (some 1)
  rwa [some_mul_some, some_mul_some, mul_one, mul_one] at this

theorem value_natural (n : ℕ) : (natural n).value ρ pow = some (n : ℚ) := by
  rw [natural, Primary.value, Atom.value, Numeral.value_ofNat]

theorem natAbs_num {q : ℚ} (h : q.den = 1) : (q.num.natAbs : ℚ) = |q| := by
  rw [Rat.abs_def, h, Nat.cast_one, Rat.divInt_one]
  rfl

theorem value_quotient (q : ℚ) : (quotient q).value ρ pow = some |q| := by
  rw [quotient]
  split
  next h => rw [Term.value, Factor.value, value_natural, natAbs_num h]
  next h =>
    have hden : (q.den : ℚ) ≠ 0 := Nat.cast_ne_zero.mpr q.den_nz
    rw [Term.value, Term.value, Factor.value, Factor.value, value_natural, value_natural]
    change some (q.num.natAbs : ℚ) * inverse (some (q.den : ℚ)) = _
    rw [inverse_some hden, some_mul_some, Rat.abs_def, Rat.divInt_eq_div, div_eq_mul_inv]
    rfl

theorem value_magnitude (q : ℚ) : (magnitude q).value ρ pow = some |q| := by
  rw [magnitude]
  split
  next h => rw [value_natural, natAbs_num h]
  next h => rw [Primary.value, Tree.value, value_quotient]; rfl

theorem value_number (m : Markup) (q : ℚ) : (number m q).value ρ pow = some |q| := by
  cases m with
  | text => exact value_quotient q
  | tex => rw [number, Term.value, Factor.value, value_magnitude]

theorem value_leading (q : ℚ) : ((leading q).map (Factor.value ρ pow)).prod = some |q| := by
  rw [leading]
  split
  next h => rw [h]; rfl
  next h => rw [List.map_singleton, List.prod_singleton, Factor.value, value_magnitude]

theorem value_ofFactors (fs : List (Factor (Primary Atom))) :
    (Term.ofFactors fs).value ρ pow = (fs.map (Factor.value ρ pow)).prod := by
  have hfold : ∀ (fs : List (Factor (Primary Atom))) (t : Grammar.Term (Factor (Primary Atom))),
      (fs.foldl (fun t f => .multiply t false f) t).value ρ pow =
        t.value ρ pow * (fs.map (Factor.value ρ pow)).prod := by
    intro fs
    induction fs with
    | nil => intro t; rw [List.foldl_nil, List.map_nil, List.prod_nil, mul_one]
    | cons f fs ih =>
      intro t
      rw [List.foldl_cons, ih, Term.value, List.map_cons, List.prod_cons, mul_assoc]
      rfl
  cases fs with
  | nil => rw [Term.ofFactors, Term.value, Factor.value, value_natural]; rfl
  | cons f fs => rw [Term.ofFactors, hfold, Term.value, List.map_cons, List.prod_cons]

theorem value_ofTerms (ts : List (Bool × Grammar.Term (Factor (Primary Atom)))) :
    Tree.value ρ pow (Tree.ofTerms ts) = (ts.map fun p => signed p.1 (p.2.value ρ pow)).sum := by
  have hfold : ∀ (ts : List (Bool × Grammar.Term (Factor (Primary Atom)))) (s : Grammar.Tree Atom),
      Tree.value ρ pow (ts.foldl (fun s p => .add s (signIf p.1) p.2) s) =
        Tree.value ρ pow s + (ts.map fun p => signed p.1 (p.2.value ρ pow)).sum := by
    intro ts
    induction ts with
    | nil => intro s; rw [List.foldl_nil, List.map_nil, List.sum_nil, add_zero]
    | cons p ts ih =>
      intro s
      obtain ⟨negated, t⟩ := p
      have hsign : decide (signIf negated = .minus) = negated := by cases negated <;> rfl
      rw [List.foldl_cons, ih, Tree.value, hsign, List.map_cons, List.sum_cons, add_assoc]
  cases ts with
  | nil => rw [Tree.ofTerms, Tree.value, Term.value, Factor.value, value_natural]; rfl
  | cons p ts => rw [Tree.ofTerms, hfold, Tree.value, List.map_cons, List.sum_cons]

theorem value_letter {name : String} (h : (var name).Lettered) :
    (letter name).value ρ pow = ρ name := by
  obtain ⟨c, -, rfl⟩ := h name (by rw [names]; exact List.mem_singleton_self _)
  rw [letter, Primary.value, Atom.value, String.toList_singleton]
  rfl

def Means (m : Markup) (ρ : String → Option ℚ) (pow : ℚ → ℚ → Option ℚ) (e : Expr) : Prop :=
  Tree.value ρ pow (e.tree m) = e.interpret ρ pow

variable {m : Markup}

theorem value_basePrimary {b : Expr} (hl : b.Lettered) (h : b.Means m ρ pow) :
    (basePrimary b (b.tree m)).value ρ pow = b.interpret ρ pow := by
  unfold basePrimary
  split
  next name => rw [value_letter hl, interpret]
  next n =>
    split
    next hb =>
      rw [isBareBase, Num.isNegative_eq, Bool.and_eq_true, Num.isInteger_iff, Bool.not_eq_true',
        decide_eq_false_iff_not, not_lt] at hb
      rw [value_natural, natAbs_num hb.2, abs_of_nonneg hb.1, interpret]
    next => rw [Primary.value, h]
  next => rw [Primary.value, h]

theorem value_exponentFactor {e : Expr} (hl : e.Lettered) (h : e.Means m ρ pow) :
    signed (exponentFactor m e (e.tree m)).1
      ((exponentFactor m e (e.tree m)).2.value ρ pow) = e.interpret ρ pow := by
  unfold exponentFactor
  split
  next name => rw [Factor.value, value_letter hl, interpret]; rfl
  next n =>
    split
    next he =>
      rw [isBareExponent, Num.isInteger_iff] at he
      rw [Factor.value, value_natural, natAbs_num he, interpret]
      exact signed_abs_one n
    next => rw [Factor.value, Primary.value, h]; rfl
  next => rw [Factor.value, Primary.value, h]; rfl

theorem value_powerFactor {b e : Expr} (hlb : b.Lettered) (hle : e.Lettered)
    (hb : b.Means m ρ pow) (he : e.Means m ρ pow) :
    (powerFactor m b e (b.tree m) (e.tree m)).value ρ pow =
      raise pow (b.interpret ρ pow) (e.interpret ρ pow) := by
  rw [powerFactor, Factor.value, value_basePrimary hlb hb, value_exponentFactor hle he]

/-- The printed factors of the expression multiply to its value.  A number and a product with a
coefficient are left out, which are never printed as factors. -/
def ChainMeans (m : Markup) (ρ : String → Option ℚ) (pow : ℚ → ℚ → Option ℚ) (e : Expr) : Prop :=
  e.isNum = false → e.coefficient.isOne = true →
    ((e.chain m).map (Factor.value ρ pow)).prod = e.interpret ρ pow

theorem value_entries (hpow : ∀ x, pow x 1 = some x) {factors : List (Expr × Expr)}
    (hl : ∀ p ∈ factors, p.1.Lettered ∧ p.2.Lettered)
    (hn : ∀ p ∈ factors, p.1.isNum = false)
    (h : ∀ p ∈ factors, (p.1.Means m ρ pow ∧ p.1.ChainMeans m ρ pow) ∧ p.2.Means m ρ pow) :
    ((entries m factors).map (Factor.value ρ pow)).prod = interpretFactors ρ pow factors := by
  induction factors with
  | nil => rw [entries, interpretFactors]; rfl
  | cons p factors ih =>
    obtain ⟨b, e⟩ := p
    rw [List.forall_mem_cons] at hl hn h
    obtain ⟨⟨hb, hchain⟩, he⟩ := h.1
    rw [entries, List.map_append, List.prod_append, ih hl.2 hn.2 h.2, interpretFactors]
    congr 1
    split
    next h1 =>
      -- An entry with the exponent one is printed as its base.
      have hone : raise pow (b.interpret ρ pow) (e.interpret ρ pow) = b.interpret ρ pow := by
        cases e with
        | num n =>
          rw [isOne, Num.isOne_iff] at h1
          rw [interpret, h1, raise]
          cases b.interpret ρ pow with
          | none => rfl
          | some x => exact hpow x
        | _ => cases h1
      rw [hone]
      split
      next hp =>
        rw [List.map_singleton, List.prod_singleton, Factor.value, Primary.value, hb]
      next hp => exact hchain hn.1 (by cases b <;> first | rfl | exact absurd rfl hp)
    next h1 =>
      rw [List.map_singleton, List.prod_singleton, value_powerFactor hl.1.1 hl.1.2 hb he]

theorem value_terms {summands : List (Expr × Num)} (hn : ∀ p ∈ summands, p.1.isNum = false)
    (hc : ∀ p ∈ summands, p.1.coefficient.isOne = true)
    (h : ∀ p ∈ summands, p.1.ChainMeans m ρ pow) :
    ((terms m summands).map fun p => signed p.1 (p.2.value ρ pow)).sum =
      interpretSummands ρ pow summands := by
  induction summands with
  | nil => rw [terms, interpretSummands]; rfl
  | cons p summands ih =>
    obtain ⟨t, c⟩ := p
    rw [List.forall_mem_cons] at hn hc h
    rw [terms, List.map_cons, List.sum_cons, ih hn.2 hc.2 h.2, interpretSummands,
      value_ofFactors, List.map_append, List.prod_append, value_leading, h.1 hn.1 hc.1]
    exact congrArg (· + _) (signed_abs c _)

theorem value_constantTerm (c : Num) :
    ((constantTerm m c).map fun p => signed p.1 (p.2.value ρ pow)).sum = some c.value := by
  rw [constantTerm]
  split
  next h =>
    rw [Num.isZero_iff.mp h]
    rfl
  next h =>
    rw [List.map_singleton, List.sum_singleton, value_number]
    exact signed_abs_one c

theorem Lettered.power {age : Nat} {b e : Expr} (h : (Expr.power age b e).Lettered) :
    b.Lettered ∧ e.Lettered := by
  rw [Lettered, names, List.forall_mem_append] at h
  exact h

theorem Lettered.product {age : Nat} {c : Num} {factors : List (Expr × Expr)}
    (h : (Expr.product age c factors).Lettered) :
    ∀ p ∈ factors, p.1.Lettered ∧ p.2.Lettered := by
  rw [Lettered, names] at h
  induction factors with
  | nil => exact List.forall_mem_nil _
  | cons p factors ih =>
    rw [factorsNames, List.forall_mem_append, List.forall_mem_append] at h
    exact List.forall_mem_cons.mpr ⟨h.1, ih h.2⟩

theorem Lettered.sum {age : Nat} {c : Num} {summands : List (Expr × Num)}
    (h : (Expr.sum age c summands).Lettered) : ∀ p ∈ summands, p.1.Lettered := by
  rw [Lettered, names] at h
  induction summands with
  | nil => exact List.forall_mem_nil _
  | cons p summands ih =>
    rw [summandsNames, List.forall_mem_append] at h
    exact List.forall_mem_cons.mpr ⟨h.1, ih h.2⟩

theorem means_of_canonical (hpow : ∀ x, pow x 1 = some x) {e : Expr} (hc : e.Canonical)
    (hl : e.Lettered) : e.Means m ρ pow ∧ e.ChainMeans m ρ pow := by
  induction hc with
  | num n _ =>
    refine ⟨?_, fun hn => nomatch hn⟩
    rw [Means, tree, Tree.value, value_number, interpret]
    exact signed_abs_one n
  | var name =>
    refine ⟨?_, fun _ _ => ?_⟩
    · rw [Means, tree, Tree.value, Term.value, Factor.value, value_letter hl, interpret]
      rfl
    · rw [chain, List.map_singleton, List.prod_singleton, Factor.value, value_letter hl, interpret]
  | power age _ _ _ ihb ihe =>
    obtain ⟨hlb, hle⟩ := hl.power
    have hvalue := value_powerFactor hlb hle (ihb hlb).1 (ihe hle).1
    refine ⟨?_, fun _ _ => ?_⟩
    · rw [Means, tree, Tree.value, Term.value, hvalue, interpret]
      rfl
    · rw [chain, List.map_singleton, List.prod_singleton, hvalue, interpret]
  | @product age c factors _ _ _ form ihb ihe =>
    have hentries := value_entries hpow hl.product form.base_not_num fun p hp =>
      ⟨ihb p hp (hl.product p hp).1, (ihe p hp (hl.product p hp).2).1⟩
    refine ⟨?_, fun _ h1 => ?_⟩
    · rw [Means, tree, Tree.value, value_ofFactors, List.map_append, List.prod_append,
        value_leading, hentries, interpret]
      exact signed_abs c _
    · have h1 : c.value = 1 := Num.isOne_iff.mp h1
      rw [chain, List.map_append, List.prod_append, value_leading, hentries, interpret, h1, abs_one]
  | @sum age c summands _ _ _ form ih =>
    have hterms : ((terms m summands).map fun p => signed p.1 (p.2.value ρ pow)).sum =
        interpretSummands ρ pow summands :=
      value_terms form.term_not_num form.term_coefficient fun p hp => (ih p hp (hl.sum p hp)).2
    have hvalue : Tree.value ρ pow (Tree.ofTerms (terms m summands ++ constantTerm m c)) =
        (Expr.sum age c summands).interpret ρ pow := by
      rw [value_ofTerms, List.map_append, List.sum_append, hterms, value_constantTerm, interpret,
        add_comm]
    refine ⟨?_, fun _ _ => ?_⟩
    · rw [Means, tree, hvalue]
    · rw [chain, List.map_singleton, List.prod_singleton, Factor.value, Primary.value, hvalue]

/-- **The printed tree of a canonical expression means the expression.** -/
theorem value_tree (hpow : ∀ x, pow x 1 = some x) {e : Expr} (hc : e.Canonical) (hl : e.Lettered)
    (m : Markup) : Tree.value ρ pow (e.tree m) = e.interpret ρ pow :=
  (means_of_canonical hpow hc hl).1

end Values

end Expr

end ExactAlgebra
