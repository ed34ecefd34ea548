import ExactAlgebra.Expr.Canonical

/-!
# Substitution

Values are substituted for variables and the result is built anew, so that it is canonical, and a
number when every value is one.

* `Expr.substitute`: replaces every variable by its value; a variable without one is a fault.
* `Bindings.value?`: the first value bound to a name counts.
-/

namespace ExactAlgebra

/-- Values by name; of several values for one name the first counts. -/
abbrev Bindings := List (String × Expr)

def Bindings.value? (bindings : Bindings) (name : String) : Option Expr :=
  (bindings.find? (·.1 == name)).map Prod.snd

namespace Expr

mutual

/-- Replaces every variable by its value and combines the results. -/
def substitute (value : String → Option Expr) : Expr → Build Expr
  | .num n => return .num n
  | .var name =>
    match value name with
    | some e => return e
    | none => throw (.unboundVariable name)
  | .power _ base exponent => do
    let base ← base.substitute value
    ofPower base (← exponent.substitute value)
  | .product _ coefficient factors => do
    ofProduct (.num coefficient :: (← substituteFactors value factors)) []
  | .sum _ constant summands => do
    ofSum ((← substituteSummands value summands) ++ [(.num constant, .plus)])

/-- The entries of a product as powers of their replaced parts. -/
def substituteFactors (value : String → Option Expr) : List (Expr × Expr) → Build (List Expr)
  | [] => return []
  | (base, exponent) :: factors => do
    let base ← base.substitute value
    let factor ← ofPower base (← exponent.substitute value)
    return factor :: (← substituteFactors value factors)

/-- The entries of a sum as products of their replaced terms and their coefficients. -/
def substituteSummands (value : String → Option Expr) : List (Expr × Num) → Build SignedTerms
  | [] => return []
  | (term, coefficient) :: summands => do
    let product ← ofProduct [← term.substitute value, .num coefficient] []
    return (product, .plus) :: (← substituteSummands value summands)

end

def evaluate (e : Expr) (bindings : Bindings) : Build Expr := e.substitute bindings.value?

end Expr

end ExactAlgebra
