import ExactAlgebra.Message
import ExactAlgebra.Value

/-!
# Faults of a script

Why an operation on values gives no result, and operations that may fail so.

* `Run`: an operation that draws ages from a supply and may fail.
* `promote`: a value as an expression.
-/

namespace ExactAlgebra.Script

inductive Fault where
  /-- An expression cannot be built. -/
  | build (fault : ExactAlgebra.Fault)
  /-- An operand is not of a kind that the operation takes. -/
  | operandKind
  /-- A value has no part or method of that name. -/
  | noSuchPart
  /-- An entry is asked for that does not exist. -/
  | noSuchEntry
  /-- A style of that name is not known; the name as it is shown. -/
  | unknownStyle (shown : String)
  /-- A variable cannot be called so; the name as it is shown. -/
  | illegalName (shown : String)
  /-- A tuple of that size stands where a term and a sign should. -/
  | notPair (size : Nat)
  /-- A quotient is too large for an inexact number. -/
  | quotientTooLarge
  /-- An integer is too large for an inexact number. -/
  | integerTooLarge
  /-- A power is too large for an inexact number. -/
  | powerTooLarge
  /-- Infinity was to become an integer. -/
  | infiniteInteger
  /-- What is no number was to become an integer. -/
  | undefinedInteger
  /-- A text is no integer; the text as it is shown. -/
  | noInteger (shown : String)
  /-- A text is no inexact number; the text as it is shown. -/
  | noBinary (shown : String)
  /-- A plain number was to be divided by zero; the quotient as it is shown. -/
  | zeroDivisor (shown : String)

def Fault.message : Fault → String
  | .build fault => fault.message
  | .operandKind => "An operand is of the wrong kind"
  | .noSuchPart => "There is no such part"
  | .noSuchEntry => "tuple index out of range"
  | .unknownStyle shown => "Unknown formatting style " ++ shown
  | .illegalName shown => "A variable name must be a non-empty string, not " ++ shown
  | .notPair size =>
    if size < 2 then
      "not enough values to unpack (expected 2, got " ++ size.repr ++ ")"
    else "too many values to unpack (expected 2)"
  | .quotientTooLarge => "integer division result too large for a float"
  | .integerTooLarge => "int too large to convert to float"
  | .powerTooLarge => "(34, 'Numerical result out of range')"
  | .infiniteInteger => "cannot convert float infinity to integer"
  | .undefinedInteger => "cannot convert float NaN to integer"
  | .noInteger shown => "invalid literal for int() with base 10: " ++ shown
  | .noBinary shown => "could not convert string to float: " ++ shown
  | .zeroDivisor shown => shown

/-- An operation that draws ages from the supply of the script. -/
abbrev Run := StateT Supply (Except Fault)

def build {α : Type} (m : Build α) : Run α := fun supply =>
  match m supply with
  | (.ok a, supply) => .ok (a, supply)
  | (.error fault, _) => .error (.build fault)

/-- A fault unless there is a value. -/
def require {α : Type} (fault : Fault) : Option α → Run α
  | some a => return a
  | none => throw fault

/-- The expression that a value is or becomes. -/
def promote (v : Value) : Run Expr :=
  match v.promote? with
  | some e => build e
  | none => throw .operandKind

end ExactAlgebra.Script
