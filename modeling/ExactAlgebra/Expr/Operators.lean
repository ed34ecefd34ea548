import ExactAlgebra.Expr.Canonical

/-!
# Arithmetic operators

* `Num.apply`: an operator on two numbers, worked out directly.
* `Expr.applyGenerally`: an operator by way of canonical sums, products and powers.
* `Expr.apply`: the direct way for two numbers, the general way otherwise.
-/

namespace ExactAlgebra

inductive Arithmetic where
  | add
  | subtract
  | multiply
  | divide
  | power
  deriving DecidableEq

def Num.apply (op : Arithmetic) (a b : Num) : Build Expr :=
  match op with
  | .add => return .num (← a.add b)
  | .subtract => return .num (← a.subtract b)
  | .multiply => return .num (← a.multiply b)
  | .divide => return .num (← a.divide b)
  | .power => a.toPower b

namespace Expr

/-- The result of an operator as a canonical sum, product or power. -/
def applyGenerally (op : Arithmetic) (a b : Expr) : Build Expr :=
  match op with
  | .add => ofSum [(a, .plus), (b, .plus)]
  | .subtract => ofSum [(a, .plus), (b, .minus)]
  | .multiply => ofProduct [a, b] []
  | .divide => ofProduct [a] [b]
  | .power => ofPower a b

/-- The result of an operator; two numbers are combined directly. -/
def apply (op : Arithmetic) (a b : Expr) : Build Expr :=
  match a, b with
  | .num a, .num b => a.apply op b
  | a, b => applyGenerally op a b

def reciprocal : Expr → Build Expr
  | .num n => return .num (← n.reciprocal)
  | e => ofProduct [.one] [e]

end Expr

end ExactAlgebra
