import ExactAlgebra.Binary64
import ExactAlgebra.Expr.Operators
import ExactAlgebra.Script.Fault

/-!
# Plain numbers

Operators on integers and fractions that are no expressions.  Sums, differences and products are
exact, and so are quotients with a fraction among the operands and powers with an integer exponent;
other quotients and powers are inexact.

* `plainArithmetic`: a binary operator.
* `toInteger`, `toBinary`: conversions.
-/

namespace ExactAlgebra.Script

/-- The inexact number nearest to a quotient. -/
def ofQuotient (q : Rat) : Run Value := do
  return .binary (← require .quotientTooLarge (Binary64.bits? q))

def inexactPower (a b : Rat) : Run Value := do
  let base ← require .quotientTooLarge (Binary64.bits? a)
  let exponent ← require .quotientTooLarge (Binary64.bits? b)
  let power := Binary64.power base exponent
  if Binary64.isFinite power then return .binary power else throw .powerTooLarge

/-- The power of two plain numbers.  An integer exponent gives an exact power, unless integers alone
would leave the integers; any other exponent gives an inexact one, unless the base is negative. -/
def plainPower (fraction : Bool) (a b : Rat) : Run Value :=
  if b.den = 1 ∧ (fraction ∨ 0 ≤ b) then
    if a = 0 ∧ b < 0 then throw (.zeroDivisor "Fraction(1, 0)")
    else
      let q := a ^ b.num
      return if fraction then .fraction q else .int q.num
  else if a = 0 ∧ b < 0 then
    throw (.zeroDivisor "0.0 cannot be raised to a negative power")
  else if a < 0 ∧ b.den ≠ 1 then throw .operandKind
  else inexactPower a b

/-- An operator on the plain numbers `a` and `b` with the values `p` and `q`.  Integers give an
integer except in a division, and a fraction on either side gives a fraction. -/
def plainArithmetic (op : Arithmetic) (a b : Value) (p q : Rat) : Run Value :=
  let fraction := a.isFraction || b.isFraction
  let exact (r : Rat) : Value := if fraction then .fraction r else .int r.num
  match op with
  | .add => return exact (p + q)
  | .subtract => return exact (p - q)
  | .multiply => return exact (p * q)
  | .divide =>
    if q = 0 then
      throw (.zeroDivisor
        (if fraction then Value.fractionShown p.num.sign 0 else "division by zero"))
    else if fraction then return .fraction (p / q)
    else ofQuotient (p / q)
  | .power => plainPower (a.isFraction || b.isFraction && q < 0) p q

/-- A plain exact number as an operator leaves it: an integer or a fraction. -/
def plain (v : Value) (q : Rat) : Value :=
  match v with
  | .fraction _ => .fraction q
  | _ => .int q.num

/-! ## Conversions -/

/-- The integer that is left of a fraction when its fractional part is cut off. -/
def truncate (q : Rat) : Int := q.num.tdiv q.den

/-- A value as an integer: a number without its fractional part, or the integer of a text. -/
def toInteger (v : Value) : Run Int :=
  match v with
  | .text s => require (.noInteger (Text.quoted s)) (Text.integer? s.toList)
  | .binary bits =>
    let fault := if Binary64.isInfinite bits then .infiniteInteger else .undefinedInteger
    do return truncate (← require fault (Binary64.value? bits))
  | v => do return truncate (← require .operandKind v.rational?)

/-- A value as an inexact number: the one nearest to a number, or the one of a text. -/
def toBinary (v : Value) : Run Value :=
  match v with
  | .text s => do
    return .binary (← require (.noBinary (Text.quoted s)) (Binary64.ofChars? s.toList))
  | .binary bits => return .binary bits
  | v =>
    match v.integer? with
    | some n => do return .binary (← require .integerTooLarge (Binary64.bits? n))
    | none => do ofQuotient (← require .operandKind v.rational?)

end ExactAlgebra.Script
