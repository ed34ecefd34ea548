import ExactAlgebra.Expr.Parse
import ExactAlgebra.Proofs.Grammar
import ExactAlgebra.Proofs.Outcome

/-!
# The expression of a tree

A tree of the grammar stands for an expression: an atom for its number or variable, a power for
`ofPower`, a term for the product of its factors by its divisors, a sum for the sum of its signed
terms, and an operand after a minus for its negation.  A lone factor or term stands for itself.

In which order the parts of a tree are worked out can be told from what is built first and from the
fault that is met first.  Two orders are given here.

* `Tree.act`: the leaves first, then each group after the groups in it, its powers from right to
  left before its terms from left to right.  `Tree.actUnder` refuses depths and heights on the way.
* `Tree.descend`: each part where recursive descent has just read it.
* `actUnder_limits`: refusing what a limit does not admit changes nothing else.
-/

namespace ExactAlgebra

theorem Atom.build_number (n : Numeral) :
    (Atom.number n).build = do return .num (← Num.new (.ofRat n.value)) := by
  have hten : ((Text.powerOfTen n.places : ℕ) : ℤ) ≠ 0 :=
    Int.natCast_ne_zero.mpr (Nat.pow_pos (by decide)).ne'
  have hshift : Text.powerOfTen (n.places - n.places) = 1 := by
    rw [Nat.sub_self]
    rfl
  rw [Atom.build, Num.ofFraction_eq, if_neg hten, Numeral.scaled, hshift, mul_one, Int.cast_natCast,
    Int.cast_natCast]
  rfl

namespace Grammar

open Build

/-! ## Leaves -/

mutual

def Primary.build : Primary Atom → Build (Primary Expr)
  | .leaf a => return .leaf (← a.build)
  | .group s => return .group (← Tree.build s)

def Factor.build : Factor (Primary Atom) → Build (Factor (Primary Expr))
  | .operand p => return .operand (← p.build)
  | .power p negated f => do
    let p ← p.build
    return .power p negated (← f.build)

def Term.build : Term (Factor (Primary Atom)) → Build (Term (Factor (Primary Expr)))
  | .factor f => return .factor (← f.build)
  | .multiply t negated f => do
    let t ← t.build
    return .multiply t negated (← f.build)
  | .divide t negated f => do
    let t ← t.build
    return .divide t negated (← f.build)

/-- A tree with its leaves built, from left to right. -/
def Tree.build : Tree Atom → Build (Tree Expr)
  | .term negated t => return .term negated (← t.build)
  | .add s sign t => do
    let s ← Tree.build s
    return .add s sign (← t.build)

end

/-! ## Products and sums without powers -/

/-- An operand after the minus that may stand before it. -/
def signedOperand (negated : Bool) (e : Expr) : Build Expr := if negated then e.neg else return e

/-- The product of a term; a single factor is itself. -/
def productOf : List Expr → List Expr → Build Expr
  | [e], [] => return e
  | factors, divisors => Expr.ofProduct factors divisors

/-- The sum of some terms; a single term that is added is itself. -/
def sumOf : SignedTerms → Build Expr
  | [(e, .plus)] => return e
  | terms => Expr.ofSum terms

def Term.operands : Term Expr → Build (List Expr × List Expr)
  | .factor e => return ([e], [])
  | .multiply t negated e => do
    let (factors, divisors) ← t.operands
    return (factors ++ [← signedOperand negated e], divisors)
  | .divide t negated e => do
    let (factors, divisors) ← t.operands
    return (factors, divisors ++ [← signedOperand negated e])

def Term.product (t : Term Expr) : Build Expr := do
  let (factors, divisors) ← t.operands
  productOf factors divisors

/-- The products of the terms of a sum with their signs, from left to right. -/
def Sum.addends : Sum Expr → Build SignedTerms
  | .term negated t => return [(← t.product, signIf negated)]
  | .add s sign t => do
    let terms ← s.addends
    return terms ++ [(← t.product, sign)]

def Sum.total (s : Sum Expr) : Build Expr := do sumOf (← s.addends)

/-! ## Powers -/

section Check

variable (check : Nat → Build Unit)

def Factor.raise : Factor Expr → Build Expr
  | .operand e => return e
  | .power base negated f => do
    let exponent ← f.raise
    let power ← Expr.ofPower base (← signedOperand negated exponent)
    check power.height
    return power

def Term.raise : Term (Factor Expr) → Build (Term Expr)
  | .factor f => return .factor (← f.raise check)
  | .multiply t negated f => do
    let e ← f.raise check
    return .multiply (← t.raise) negated e
  | .divide t negated f => do
    let e ← f.raise check
    return .divide (← t.raise) negated e

def Sum.raise : Sum (Factor Expr) → Build (Sum Expr)
  | .term negated t => return .term negated (← t.raise check)
  | .add s sign t => do
    let t ← t.raise check
    return .add (← s.raise) sign t

/-- The expression of a group whose operands are expressions. -/
def Sum.combine (s : Sum (Factor Expr)) : Build Expr := do
  let e ← (← s.raise check).total
  check e.height
  return e

/-! ## Groups -/

mutual

def Primary.resolve (depth : Nat) : Primary Expr → Build Expr
  | .leaf e => return e
  | .group s => do
    check (depth + 1)
    (← Tree.groups (depth + 1) s).combine check

def Factor.groups (depth : Nat) : Factor (Primary Expr) → Build (Factor Expr)
  | .operand p => return .operand (← p.resolve depth)
  | .power p negated f => do
    let e ← p.resolve depth
    return .power e negated (← f.groups depth)

def Term.groups (depth : Nat) : Term (Factor (Primary Expr)) → Build (Term (Factor Expr))
  | .factor f => return .factor (← f.groups depth)
  | .multiply t negated f => do
    let t ← t.groups depth
    return .multiply t negated (← f.groups depth)
  | .divide t negated f => do
    let t ← t.groups depth
    return .divide t negated (← f.groups depth)

/-- A tree at a depth of brackets with its groups resolved, from left to right. -/
def Tree.groups (depth : Nat) : Tree Expr → Build (Sum (Factor Expr))
  | .term negated t => return .term negated (← t.groups depth)
  | .add s sign t => do
    let s ← Tree.groups depth s
    return .add s sign (← t.groups depth)

end

/-- The expression of a tree, with a check of every depth of brackets, of the height of every power
and of the height of every group. -/
def Tree.actUnder (s : Tree Atom) : Build Expr := do
  let s ← Tree.build s
  check 0
  (← Tree.groups check 0 s).combine check

end Check

def Tree.act (s : Tree Atom) : Build Expr := Tree.actUnder (fun _ => return ()) s

/-! ## Checks -/

section Limits

variable {fault : Int → Fault} {check : Int → Nat → Build Unit} {check' : Nat → Build Unit}

section Heights

variable (hcheck : ∀ n, Limits fault (fun limit => check limit n) (check' n))

include hcheck

theorem Factor.raise_limits (f : Factor Expr) :
    Limits fault (fun limit => f.raise (check limit)) (f.raise check') := by
  induction f with
  | operand e => exact .refl _
  | power base negated f ih =>
    exact ih.bind fun _ => (Limits.refl _).bind fun _ => (Limits.refl _).bind fun _ =>
      (hcheck _).bind fun _ => .refl _

theorem Term.raise_limits (t : Term (Factor Expr)) :
    Limits fault (fun limit => t.raise (check limit)) (t.raise check') := by
  induction t with
  | factor f => exact (f.raise_limits hcheck).bind fun _ => .refl _
  | multiply t negated f ih => exact (f.raise_limits hcheck).bind fun _ => ih.bind fun _ => .refl _
  | divide t negated f ih => exact (f.raise_limits hcheck).bind fun _ => ih.bind fun _ => .refl _

theorem Sum.raise_limits (s : Sum (Factor Expr)) :
    Limits fault (fun limit => s.raise (check limit)) (s.raise check') := by
  induction s with
  | term negated t => exact (t.raise_limits hcheck).bind fun _ => .refl _
  | add s sign t ih => exact (t.raise_limits hcheck).bind fun _ => ih.bind fun _ => .refl _

theorem Sum.combine_limits (s : Sum (Factor Expr)) :
    Limits fault (fun limit => s.combine (check limit)) (s.combine check') :=
  (s.raise_limits hcheck).bind fun _ => (Limits.refl _).bind fun _ =>
    (hcheck _).bind fun _ => .refl _

end Heights

mutual

theorem Primary.resolve_limits (hcheck : ∀ n, Limits fault (fun limit => check limit n) (check' n))
    (p : Primary Expr) (depth : Nat) : Limits fault (fun limit => p.resolve (check limit) depth)
      (p.resolve check' depth) := by
  cases p with
  | leaf e => simp only [Primary.resolve]; exact .refl _
  | group s =>
    simp only [Primary.resolve]
    exact (hcheck _).bind fun _ => (Tree.groups_limits hcheck s _).bind fun s =>
      s.combine_limits hcheck

theorem Factor.groups_limits (hcheck : ∀ n, Limits fault (fun limit => check limit n) (check' n))
    (f : Factor (Primary Expr)) (depth : Nat) :
    Limits fault (fun limit => f.groups (check limit) depth)
      (f.groups check' depth) := by
  cases f with
  | operand p =>
    simp only [Factor.groups]
    exact (Primary.resolve_limits hcheck p depth).bind fun _ => .refl _
  | power p negated f =>
    simp only [Factor.groups]
    exact (Primary.resolve_limits hcheck p depth).bind fun _ =>
      (Factor.groups_limits hcheck f depth).bind fun _ => .refl _

theorem Term.groups_limits (hcheck : ∀ n, Limits fault (fun limit => check limit n) (check' n))
    (t : Term (Factor (Primary Expr))) (depth : Nat) :
    Limits fault (fun limit => t.groups (check limit) depth)
      (t.groups check' depth) := by
  cases t with
  | factor f =>
    simp only [Term.groups]
    exact (Factor.groups_limits hcheck f depth).bind fun _ => .refl _
  | multiply t negated f =>
    simp only [Term.groups]
    exact (Term.groups_limits hcheck t depth).bind fun _ =>
      (Factor.groups_limits hcheck f depth).bind fun _ => .refl _
  | divide t negated f =>
    simp only [Term.groups]
    exact (Term.groups_limits hcheck t depth).bind fun _ =>
      (Factor.groups_limits hcheck f depth).bind fun _ => .refl _

theorem Tree.groups_limits (hcheck : ∀ n, Limits fault (fun limit => check limit n) (check' n))
    (s : Tree Expr) (depth : Nat) : Limits fault (fun limit => Tree.groups (check limit) depth s)
      (Tree.groups check' depth s) := by
  cases s with
  | term negated t =>
    simp only [Tree.groups]
    exact (Term.groups_limits hcheck t depth).bind fun _ => .refl _
  | add s sign t =>
    simp only [Tree.groups]
    exact (Tree.groups_limits hcheck s depth).bind fun _ =>
      (Term.groups_limits hcheck t depth).bind fun _ => .refl _

end

/-- If the checks of a limit change nothing but what they refuse, so does the limit on a whole tree,
and a high enough limit does what the checks do without it. -/
theorem actUnder_limits (hcheck : ∀ n, Limits fault (fun limit => check limit n) (check' n))
    (s : Tree Atom) :
    Limits fault (fun limit => Tree.actUnder (check limit) s) (Tree.actUnder check' s) :=
  (Limits.refl _).bind fun s => (hcheck 0).bind fun _ =>
    (Tree.groups_limits hcheck s 0).bind fun s => s.combine_limits hcheck

end Limits

/-! ## The order of reading -/

mutual

def Primary.descend : Primary Atom → Build Expr
  | .leaf a => a.build
  | .group s => do sumOf (← Tree.descendTerms s)

def Factor.descend : Factor (Primary Atom) → Build Expr
  | .operand p => p.descend
  | .power p negated f => do
    let base ← p.descend
    let exponent ← f.descend
    Expr.ofPower base (← signedOperand negated exponent)

/-- The factors and the divisors of a term, each worked out as it is read. -/
def Term.descendOperands : Term (Factor (Primary Atom)) → Build (List Expr × List Expr)
  | .factor f => return ([← f.descend], [])
  | .multiply t negated f => do
    let (factors, divisors) ← t.descendOperands
    let e ← f.descend
    return (factors ++ [← signedOperand negated e], divisors)
  | .divide t negated f => do
    let (factors, divisors) ← t.descendOperands
    let e ← f.descend
    return (factors, divisors ++ [← signedOperand negated e])

def Tree.descendTerms : Tree Atom → Build SignedTerms
  | .term negated t => do
    let (factors, divisors) ← t.descendOperands
    return [(← productOf factors divisors, signIf negated)]
  | .add s sign t => do
    let terms ← Tree.descendTerms s
    let (factors, divisors) ← t.descendOperands
    return terms ++ [(← productOf factors divisors, sign)]

end

/-- The expression of a tree, each part worked out as it is read. -/
def Tree.descend (s : Tree Atom) : Build Expr := do sumOf (← Tree.descendTerms s)

end Grammar

end ExactAlgebra
