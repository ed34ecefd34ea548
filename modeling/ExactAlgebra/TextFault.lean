/-!
# Faults of a text

What can be wrong with a text that should be an expression.
-/

namespace ExactAlgebra

inductive TextFault where
  /-- Digits and points that are no numeral. -/
  | malformedNumber (text : String)
  /-- A character that belongs to no token, at its position in the text without blanks. -/
  | illegalCharacter (c : Char) (position : Nat)
  /-- A bracket is closed that is not open, or the text ends with an opening bracket. -/
  | mismatchedBrackets (source : String)
  /-- A bracket is closed right after it was opened. -/
  | emptyBrackets (source : String)
  /-- An operator lacks an operand. -/
  | danglingOperator (source : String)
  /-- Brackets or powers nest more deeply than the limit. -/
  | nesting (source : String) (limit : Int)
  deriving DecidableEq

namespace TextFault

def subject : TextFault → String
  | .malformedNumber text => text
  | .illegalCharacter c _ => String.singleton c
  | .mismatchedBrackets source => source
  | .emptyBrackets source => source
  | .danglingOperator source => source
  | .nesting source _ => source

end TextFault

end ExactAlgebra
