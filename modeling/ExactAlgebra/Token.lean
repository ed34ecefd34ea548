import ExactAlgebra.Numeral

/-!
# Tokens

The words of a written expression: numerals and one-letter variables, brackets and operators.

* `Token.chars`: a token as it is written.
-/

namespace ExactAlgebra

/-- An operand that is a single token. -/
inductive Atom where
  | number (n : Numeral)
  | variable (name : Char)
  deriving DecidableEq

inductive Operator where
  | plus
  | minus
  | times
  | over
  | caret
  deriving DecidableEq

inductive Token where
  | atom (a : Atom)
  | opening
  | closing
  | operator (o : Operator)
  deriving DecidableEq

namespace Operator

def char : Operator → Char
  | .plus => '+'
  | .minus => '-'
  | .times => '*'
  | .over => '/'
  | .caret => '^'

def ofChar? : Char → Option Operator
  | '+' => some .plus
  | '-' => some .minus
  | '*' => some .times
  | '/' => some .over
  | '^' => some .caret
  | _ => none

theorem ofChar?_eq_some_iff {c : Char} {o : Operator} : ofChar? c = some o ↔ c = o.char := by
  constructor
  · intro h
    unfold ofChar? at h
    split at h <;> simp_all [char]
    all_goals subst h; rfl
  · rintro rfl
    cases o <;> rfl

end Operator

namespace Token

/-- A token as it is written. -/
def chars : Token → List Char
  | .atom (.number n) => n.chars
  | .atom (.variable name) => [name]
  | .opening => ['(']
  | .closing => [')']
  | .operator o => [o.char]

def text (t : Token) : String := String.ofList t.chars

def kind : Token → String
  | .atom (.number _) => "number"
  | .atom (.variable _) => "variable"
  | .opening => "open"
  | .closing => "close"
  | .operator .plus => "plus"
  | .operator .minus => "minus"
  | .operator .times => "multiply"
  | .operator .over => "divide"
  | .operator .caret => "caret"

/-- The full name of the kind of a token, with its text in brackets. -/
def describe (t : Token) : String := "core.parsing.Token(" ++ t.text ++ ")"

def endsOperand : Token → Bool
  | .atom _ => true
  | .closing => true
  | _ => false

end Token

end ExactAlgebra
