import ExactAlgebra.Expr.Evaluate
import ExactAlgebra.Expr.Simplify

/-!
# Working on the entries of products and sums

Substitution and simplification work on the entries of a product or a sum in the same way: what they
make of the entries, one after the other, is multiplied or added.  They differ only in what they
make of a single power or term.

* `factorsWith`, `summandsWith`: the entries, given what is made of a single one.
* `substituteFactors_eq`, `simplifyFactors_eq`, `distributeAll_eq`, `substituteSummands_eq`,
  `simplifySummands_eq`.
-/

namespace ExactAlgebra.Expr

/-- What is made of each base with its exponent. -/
def factorsWith (power : Expr → Expr → Build Expr) : List (Expr × Expr) → Build (List Expr)
  | [] => return []
  | (base, exponent) :: factors => do
    let factor ← power base exponent
    return factor :: (← factorsWith power factors)

/-- What is made of each term, times its coefficient. -/
def summandsWith (term : Expr → Build Expr) : List (Expr × Num) → Build SignedTerms
  | [] => return []
  | (t, coefficient) :: summands => do
    let product ← ofProduct [← term t, .num coefficient] []
    return (product, .plus) :: (← summandsWith term summands)

def substitutePower (value : String → Option Expr) (base exponent : Expr) : Build Expr := do
  let base ← base.substitute value
  ofPower base (← exponent.substitute value)

def simplifyPower (base exponent : Expr) : Build Expr := do
  let base ← base.simplify
  distribute base (← exponent.simplify)

/-- A base raised to the product of its exponent and another one, by the exponent laws. -/
def distributePower (exponent base inner : Expr) : Build Expr := do
  distribute base (← multiplyExponents inner exponent)

theorem distributeAll_eq (factors : List (Expr × Expr)) (exponent : Expr) :
    distributeAll factors exponent = factorsWith (distributePower exponent) factors := by
  induction factors with
  | nil => rfl
  | cons p factors ih =>
    rw [distributeAll, factorsWith, ih]
    simp only [distributePower, bind_assoc]

theorem substituteFactors_eq (value : String → Option Expr) (factors : List (Expr × Expr)) :
    substituteFactors value factors = factorsWith (substitutePower value) factors := by
  induction factors with
  | nil => rfl
  | cons p factors ih =>
    rw [substituteFactors, factorsWith, ih]
    simp only [substitutePower, bind_assoc]

theorem simplifyFactors_eq (factors : List (Expr × Expr)) :
    simplifyFactors factors = factorsWith simplifyPower factors := by
  induction factors with
  | nil => rfl
  | cons p factors ih =>
    rw [simplifyFactors, factorsWith, ih]
    simp only [simplifyPower, bind_assoc]

theorem substituteSummands_eq (value : String → Option Expr) (summands : List (Expr × Num)) :
    substituteSummands value summands = summandsWith (substitute value) summands := by
  induction summands with
  | nil => rfl
  | cons p summands ih => rw [substituteSummands, summandsWith, ih]

theorem simplifySummands_eq (summands : List (Expr × Num)) :
    simplifySummands summands = summandsWith simplify summands := by
  induction summands with
  | nil => rfl
  | cons p summands ih => rw [simplifySummands, summandsWith, ih]

end ExactAlgebra.Expr
