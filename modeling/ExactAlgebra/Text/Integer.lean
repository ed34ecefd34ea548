import ExactAlgebra.Text.Blank
import ExactAlgebra.Text.Digit

/-!
# Integers as text

An integer is written with decimal digits, an optional sign before them, single underscores between
them and blanks around it.

* `integer?`: the integer that a text denotes.
-/

namespace ExactAlgebra.Text

/-- The value of a run of digits in which every underscore stands between two digits; `value` is the
number so far and `awaiting` tells that a digit must follow. -/
def digitsValue? (value : Nat) (awaiting : Bool) : List Char → Option Nat
  | [] => if awaiting then none else some value
  | c :: text =>
    if c = '_' then if awaiting then none else digitsValue? value true text
    else
      match decimalDigit? c with
      | some d => digitsValue? (10 * value + d) false text
      | none => none

def integer? (text : List Char) : Option Int :=
  match trim text with
  | '-' :: digits => (digitsValue? 0 true digits).map fun n => -(n : Int)
  | '+' :: digits => (digitsValue? 0 true digits).map fun n => (n : Int)
  | digits => (digitsValue? 0 true digits).map fun n => (n : Int)

end ExactAlgebra.Text
