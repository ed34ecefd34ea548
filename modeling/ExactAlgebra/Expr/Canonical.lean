import ExactAlgebra.Expr.Order
import ExactAlgebra.Expr.Power
import ExactAlgebra.Ledger
import ExactAlgebra.Sign

/-!
# Products and sums in canonical form

A product is drafted by multiplying its rational factors into a coefficient and entering every other
factor into a ledger of exponents by base.  A sum is drafted by adding its rational terms into a
constant and entering every other term into a ledger of coefficients by term.  A finished draft
collapses to the simplest node that holds it.

Exponents of one base are added, and a sum of one term is a product, so the two constructions call
each other.  Each turn through an exponent leads one level down the nesting of symbolic exponents,
which is what `sumAt` counts.

* `ofProduct`: the product of some factors divided by some divisors.
* `ofSum`: the sum of some signed terms.
* `neg`: the canonical negation.
-/

namespace ExactAlgebra

/-- A sum with its terms still apart: each term with the sign with which it counts. -/
abbrev SignedTerms := List (Expr × Sign)

structure ProductDraft where
  coefficient : Num
  exponents : Ledger Expr Expr

/-- A sum under construction: the rational part and the coefficients by term. -/
structure SumDraft where
  constant : Num
  coefficients : Ledger Expr Num

/-! ## Parts of a product -/

namespace Expr

/-- The entries of a product, the coefficient included as a first entry unless it is one. -/
def productTerms (coefficient : Num) (factors : List (Expr × Expr)) : List (Expr × Expr) :=
  if coefficient.isOne then factors else (.num coefficient, .one) :: factors

/-- The entries of a sum, the constant included as a last entry unless it is zero. -/
def sumTerms (constant : Num) (summands : List (Expr × Num)) : List (Expr × Num) :=
  if constant.isZero then summands else summands ++ [(.one, constant)]

/-- The coefficient of a product and what is left when it is taken away. -/
def separate (age : Nat) (coefficient : Num) : List (Expr × Expr) → Build (Num × Expr)
  | [(base, exponent)] => return (coefficient, ← ofPower base exponent)
  | factors =>
    if coefficient.isOne then return (.one, .product age coefficient factors)
    else return (coefficient, .product (← Build.fresh) .one factors)

end Expr

/-! ## Drafting a product -/

namespace ProductDraft

def empty : ProductDraft := ⟨.one, .empty⟩

variable (sum : SignedTerms → Build Expr)

def addExponents : Expr → Expr → Build Expr
  | .num a, .num b => return .num (← a.add b)
  | a, b => sum [(a, .plus), (b, .plus)]

def signedExponent (exponent : Expr) : Sign → Build Expr
  | .plus => return exponent
  | .minus =>
    match exponent with
    | .num e => return .num (← e.negate)
    | _ => sum [(exponent, .minus)]

/-- Exponents of one base are added, and an exponent of zero takes the base away. -/
def rule : Ledger.Rule Build Expr := ⟨.zero, addExponents sum, Expr.isZero⟩

/-- Multiplies the coefficient by a number, or divides it. -/
def scale (d : ProductDraft) (n : Num) : Sign → Build ProductDraft
  | .plus => return { d with coefficient := ← d.coefficient.multiply n }
  | .minus => return { d with coefficient := ← d.coefficient.divide n }

def enter (d : ProductDraft) (base exponent : Expr) : Build ProductDraft :=
  return { d with exponents := ← d.exponents.post (rule sum) base exponent }

def enterAll (d : ProductDraft) (sign : Sign) (factors : List (Expr × Expr)) :
    Build ProductDraft :=
  factors.foldlM
    (fun d (base, exponent) => do d.enter sum base (← signedExponent sum exponent sign)) d

/-- Multiplies by a factor, or divides by it.  Numbers and coefficients go into the coefficient,
a power goes to the entry of its base unless the base is a number, and anything else is a base of
its own. -/
def absorb (d : ProductDraft) (factor : Expr) (sign : Sign) : Build ProductDraft :=
  match factor with
  | .num n => d.scale n sign
  | .product _ coefficient factors => do (← d.scale coefficient sign).enterAll sum sign factors
  | .power _ base exponent =>
    if base.isNum then d.enter sum factor (.num sign.toNum)
    else do d.enter sum base (← signedExponent sum exponent sign)
  | _ => d.enter sum factor (.num sign.toNum)

def absorbAll (factors divisors : List Expr) (d : ProductDraft) : Build ProductDraft := do
  let d ← factors.foldlM (fun d factor => d.absorb sum factor .plus) d
  divisors.foldlM (fun d divisor => d.absorb sum divisor .minus) d

/-- The bases that are products themselves, with the exponent one. -/
def nested (d : ProductDraft) : List Expr :=
  (d.exponents.entries.filter fun (base, exponent) => base.isProduct && exponent.isOne).map Prod.fst

theorem mem_nested {d : ProductDraft} {base : Expr} (h : base ∈ d.nested) :
    ∃ exponent, (base, exponent) ∈ d.exponents.entries ∧ base.isProduct = true ∧
      exponent.isOne = true := by
  obtain ⟨⟨base, exponent⟩, hp, rfl⟩ := List.mem_map.mp h
  rw [List.mem_filter, Bool.and_eq_true] at hp
  exact ⟨exponent, hp⟩

/-- Takes a nested product out of the ledger and multiplies by it, whatever its exponent has become
since the round began. -/
def unnest (d : ProductDraft) (base : Expr) : Build ProductDraft :=
  match d.exponents.get? base with
  | some exponent => do
    Build.observe exponent.isOne
    absorb sum { d with exponents := d.exponents.erase base } base .plus
  | none => do
    Build.observe false
    throw (.missingEntry base)

/-- Merges nested products, round by round, until none is left. -/
def flatten : Nat → ProductDraft → Build ProductDraft
  | 0, _ => throw .exhausted
  | rounds + 1, d =>
    match d.nested with
    | [] => return d
    | bases => do flatten rounds (← bases.foldlM (unnest sum) d)

/-- A number of rounds that merging cannot reach: every merge replaces a base by smaller ones. -/
def rounds (d : ProductDraft) : Nat := (d.exponents.keys.map Expr.size).foldr (· + ·) 0 + 1

def collapse (d : ProductDraft) : Build Expr :=
  if d.coefficient.isZero then return .zero
  else
    match d.exponents.entries with
    | [] => return .num d.coefficient
    | [(base, exponent)] =>
      if d.coefficient.isOne then Expr.ofPower base exponent
      else return .product (← Build.fresh) d.coefficient [(base, exponent)]
    | _ =>
      return .product (← Build.fresh) d.coefficient (d.exponents.sorted Expr.compareBases)

def finish (d : ProductDraft) : Build Expr := do (← d.flatten sum d.rounds).collapse

end ProductDraft

/-! ## Drafting a sum -/

namespace SumDraft

def empty : SumDraft := ⟨.zero, .empty⟩

/-- Coefficients of one term are added, and a coefficient of zero takes the term away. -/
def rule : Ledger.Rule Build Num := ⟨.zero, Num.add, Num.isZero⟩

def enter (d : SumDraft) (term : Expr) (coefficient : Num) : Build SumDraft :=
  return { d with coefficients := ← d.coefficients.post rule term coefficient }

/-- Adds a number, scaled by another, to the constant. -/
def shift (d : SumDraft) (n scale : Num) : Build SumDraft := do
  return { d with constant := ← d.constant.add (← n.multiply scale) }

/-- Adds a term, scaled by a number.  Numbers go into the constant, a sum is added entry by entry,
a product goes to the entry of what is left without its coefficient, and anything else is a term of
its own. -/
def absorb (d : SumDraft) (term : Expr) (scale : Num) : Build SumDraft :=
  match term with
  | .num n => d.shift n scale
  | .sum _ constant summands => do
    summands.foldlM (fun d (term, coefficient) => do d.enter term (← coefficient.multiply scale))
      (← d.shift constant scale)
  | .product age coefficient factors => do
    let (coefficient, rest) ← Expr.separate age coefficient factors
    d.enter rest (← coefficient.multiply scale)
  | _ => d.enter term scale

def absorbAll (terms : SignedTerms) (d : SumDraft) : Build SumDraft :=
  terms.foldlM (fun d (term, sign) => d.absorb term sign.toNum) d

/-- The terms that are sums themselves, with the coefficient one. -/
def nested (d : SumDraft) : List Expr :=
  (d.coefficients.entries.filter fun (term, coefficient) => term.isSum && coefficient.isOne).map
    Prod.fst

theorem mem_nested {d : SumDraft} {term : Expr} (h : term ∈ d.nested) :
    ∃ coefficient, (term, coefficient) ∈ d.coefficients.entries ∧ term.isSum = true ∧
      coefficient.isOne = true := by
  obtain ⟨⟨term, coefficient⟩, hp, rfl⟩ := List.mem_map.mp h
  rw [List.mem_filter, Bool.and_eq_true] at hp
  exact ⟨coefficient, hp⟩

/-- Takes a nested sum out of the ledger and adds it, whatever its coefficient has become since the
round began. -/
def unnest (d : SumDraft) (term : Expr) : Build SumDraft :=
  match d.coefficients.get? term with
  | some coefficient => do
    Build.observe coefficient.isOne
    absorb { d with coefficients := d.coefficients.erase term } term .one
  | none => do
    Build.observe false
    throw (.missingEntry term)

def flatten : Nat → SumDraft → Build SumDraft
  | 0, _ => throw .exhausted
  | rounds + 1, d =>
    match d.nested with
    | [] => return d
    | terms => do flatten rounds (← terms.foldlM unnest d)

/-- A number of rounds that merging cannot reach: every merge replaces a term by smaller ones. -/
def rounds (d : SumDraft) : Nat := (d.coefficients.keys.map Expr.size).foldr (· + ·) 0 + 1

/-- The simplest expression for the draft, given how to multiply a single term. -/
def collapse (product : List Expr → Build Expr) (d : SumDraft) : Build Expr :=
  match d.coefficients.entries with
  | [] => return .num d.constant
  | [(term, coefficient)] =>
    if d.constant.isZero then product [term, .num coefficient]
    else return .sum (← Build.fresh) d.constant [(term, coefficient)]
  | _ => return .sum (← Build.fresh) d.constant (d.coefficients.sorted Expr.compareTerms)

def finish (product : List Expr → Build Expr) (d : SumDraft) : Build Expr := do
  (← d.flatten d.rounds).collapse product

end SumDraft

/-! ## Canonical products and sums -/

namespace Expr

/-- The canonical product, given how to add exponents. -/
def productWith (sum : SignedTerms → Build Expr) (factors divisors : List Expr) : Build Expr := do
  (← ProductDraft.empty.absorbAll sum factors divisors).finish sum

def sumWith (product : List Expr → Build Expr) (terms : SignedTerms) : Build Expr := do
  (← SumDraft.empty.absorbAll terms).finish product

/-- The canonical sum of terms whose symbolic exponents nest less deeply than the level. -/
def sumAt : Nat → SignedTerms → Build Expr
  | 0, _ => throw .exhausted
  | level + 1, terms => sumWith (fun factors => productWith (sumAt level) factors []) terms

/-- The depth to which symbolic exponents nest in any of the expressions. -/
def depthOf (operands : List Expr) : Nat := (operands.map exponentDepth).foldr max 0

def ofSum (terms : SignedTerms) : Build Expr := sumAt (depthOf (terms.map Prod.fst) + 1) terms

def ofProduct (factors divisors : List Expr) : Build Expr :=
  productWith (sumAt (depthOf (factors ++ divisors))) factors divisors

def neg : Expr → Build Expr
  | .num n => return .num (← n.negate)
  | e => ofSum [(e, .minus)]

end Expr

end ExactAlgebra
