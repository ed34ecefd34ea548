import ExactAlgebra.Expr.Canonical

/-!
# Exponent laws

Simplification rebuilds an expression from the leaves up and raises each base by the exponent laws:
an exponent goes to every factor of a product, and exponents of exponents are multiplied.

* `Expr.distribute`: raises a simplified base to a simplified exponent.
* `Expr.simplify`: applies the exponent laws everywhere.
-/

namespace ExactAlgebra.Expr

def multiplyExponents (inner outer : Expr) : Build Expr := ofProduct [inner, outer] []

/-- The coefficient of a product raised to an exponent, unless it is one. -/
def distributeCoefficient (coefficient : Num) (exponent : Expr) : Build (List Expr) :=
  if coefficient.isOne then return []
  else do return [← ofPower (.num coefficient) (← multiplyExponents .one exponent)]

mutual

/-- Raises a base to an exponent, with `(a b) ^ x = a ^ x b ^ x` and `(b ^ x) ^ y = b ^ (x y)`. -/
def distribute : Expr → Expr → Build Expr
  | .num b, exponent => ofPower (.num b) exponent
  | .var name, exponent => ofPower (.var name) exponent
  | .power _ base inner, exponent => do distribute base (← multiplyExponents inner exponent)
  | .product _ coefficient factors, exponent => do
    let first ← distributeCoefficient coefficient exponent
    ofProduct (first ++ (← distributeAll factors exponent)) []
  | .sum age constant summands, exponent => ofPower (.sum age constant summands) exponent

def distributeAll : List (Expr × Expr) → Expr → Build (List Expr)
  | [], _ => return []
  | (base, inner) :: factors, exponent => do
    let factor ← distribute base (← multiplyExponents inner exponent)
    return factor :: (← distributeAll factors exponent)

end

mutual

/-- Applies the exponent laws to the whole expression. -/
def simplify : Expr → Build Expr
  | .num n => return .num n
  | .var name => return .var name
  | .power _ base exponent => do
    let base ← base.simplify
    distribute base (← exponent.simplify)
  | .product _ coefficient factors => do
    ofProduct (.num coefficient :: (← simplifyFactors factors)) []
  | .sum _ constant summands => do
    ofSum ((← simplifySummands summands) ++ [(.num constant, .plus)])

/-- The entries of a product as simplified powers. -/
def simplifyFactors : List (Expr × Expr) → Build (List Expr)
  | [] => return []
  | (base, exponent) :: factors => do
    let base ← base.simplify
    let factor ← distribute base (← exponent.simplify)
    return factor :: (← simplifyFactors factors)

/-- The entries of a sum as simplified products. -/
def simplifySummands : List (Expr × Num) → Build SignedTerms
  | [] => return []
  | (term, coefficient) :: summands => do
    let product ← ofProduct [← term.simplify, .num coefficient] []
    return (product, .plus) :: (← simplifySummands summands)

end

end ExactAlgebra.Expr
