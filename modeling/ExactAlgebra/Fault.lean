import ExactAlgebra.Expr.Basic
import ExactAlgebra.TextFault

/-!
# Faults of construction

What can go wrong while an expression is built from its parts.
-/

namespace ExactAlgebra

inductive Fault where
  /-- A text is no expression. -/
  | text (fault : TextFault)
  /-- A number was to be divided by zero. -/
  | divisionByZero (numerator : Rat)
  /-- Zero was to be raised to an exponent that is zero or negative. -/
  | undefinedPower (base exponent : Rat)
  /-- A variable has no value. -/
  | unboundVariable (name : String)
  /-- A binding has neither a name nor a value. -/
  | emptyBinding
  /-- A nested entry was cancelled by another one before its own turn to be merged. -/
  | missingEntry (key : Expr)
  /-- A construction did not end within the steps that its arguments allow. -/
  | exhausted

end ExactAlgebra
