import ExactAlgebra.Expr.Print
import ExactAlgebra.Fault
import ExactAlgebra.Text.Quoted

/-!
# The wording of faults

* `TextFault.message`, `Fault.message`: one sentence for every cause.
-/

namespace ExactAlgebra

def TextFault.message : TextFault → String
  | .malformedNumber text => "The number " ++ Text.quoted text ++ " is malformed"
  | .illegalCharacter c position =>
    "Illegal character " ++ Text.quoted (String.singleton c) ++ " at position " ++ position.repr
  | .mismatchedBrackets source =>
    "The expression " ++ Text.quoted source ++ " has mismatched brackets"
  | .emptyBrackets source => "The expression " ++ Text.quoted source ++ " contains empty brackets"
  | .danglingOperator source =>
    "The expression " ++ Text.quoted source ++ " has an operator without an operand"
  | .nesting source limit =>
    "The expression " ++ Text.quoted source ++ " nests more than " ++
      String.ofList (intDigits limit) ++ " levels deep"

def Fault.message : Fault → String
  | .text fault => fault.message
  | .divisionByZero numerator => "Can't divide " ++ ratText numerator ++ " by zero"
  | .undefinedPower base exponent =>
    ratText base ++ " raised to the power " ++ ratText exponent ++ " is undefined"
  | .unboundVariable name => "No value for variable " ++ Text.quoted name
  | .emptyBinding => "not enough values to unpack (expected 2, got 0)"
  | .missingEntry key => key.text
  | .exhausted => "The construction does not end"

end ExactAlgebra
