import ExactAlgebra.Build

/-!
# Powers in canonical form

A power is worked out when its value is rational, and collapses when its base is one or its
exponent is zero or one.  All other powers stay symbolic.

* `Num.toPower`: a number raised to a number.
* `Expr.ofPower`: an expression raised to an expression.
-/

namespace ExactAlgebra

/-- A number raised to a number: one to any exponent is one, zero to a positive exponent is zero, an
integer exponent is worked out, and any other exponent leaves a symbolic power.  A negative exponent
changes its sign when the base is turned over, and then the same rules apply. -/
def Num.toPower (base exponent : Num) : Build Expr :=
  if base.isOne then return .one
  else if base.isZero then
    if 0 < exponent.signum then return .zero
    else throw (.undefinedPower base.value exponent.value)
  else if exponent.isInteger then
    if exponent.numerator < 0 then do
      let inverse ← base.reciprocal
      let age ← Build.fresh
      inverse.toPower ⟨-exponent.toRatio, age⟩
    else return .num (← new (base.power exponent.numerator.toNat))
  else return .power (← Build.fresh) (.num base) (.num exponent)
termination_by (-exponent.numerator).toNat
decreasing_by
  rw [Ratio.neg_eq]
  dsimp only
  omega

/-- An expression raised to an expression.  The exponents zero and one leave one and the base, and
a rational base follows `Num.toPower` unless the exponent is symbolic. -/
def Expr.ofPower : Expr → Expr → Build Expr
  | .num b, .num e => b.toPower e
  | .num b, exponent =>
    if b.isOne then return .one else return .power (← Build.fresh) (.num b) exponent
  | base, .num e =>
    if e.isZero then return .one
    else if e.isOne then return base
    else return .power (← Build.fresh) base (.num e)
  | base, exponent => return .power (← Build.fresh) base exponent

namespace Expr

/-- A number raised to a symbolic exponent. -/
theorem ofPower_num (b : Num) {exponent : Expr} (h : exponent.isNum = false) :
    ofPower (.num b) exponent =
      if b.isOne then return .one else return .power (← Build.fresh) (.num b) exponent := by
  cases exponent with
  | num e => exact nomatch h
  | _ => rfl

/-- A base that is no number. -/
theorem ofPower_symbolic {base : Expr} (h : base.isNum = false) (exponent : Expr) :
    ofPower base exponent =
      if exponent.isZero then return .one
      else if exponent.isOne then return base
      else return .power (← Build.fresh) base exponent := by
  cases base with
  | num b => exact nomatch h
  | _ => cases exponent <;> rfl

end Expr

end ExactAlgebra
