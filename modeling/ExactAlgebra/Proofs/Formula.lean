import ExactAlgebra.Proofs.Partial
import ExactAlgebra.Text.Blank
import Mathlib.Data.Nat.Digits.Defs

/-!
# Formulas

What a text of numbers means by the conventions of arithmetic, without tokens, expressions or
passes: the text is read character by character into a formula, and the formula has a value or none.

    sum     = signs product {signs product}
    product = power {'*' signs power | '/' signs power | power}
    power   = operand ['^' signs power]
    operand = number | '(' sum ')'

A run of signs counts as a minus if it holds an odd number of minus signs, and may be empty except
between two products.  Blanks do not count, and brackets that are left open are closed at the end.

* `Formula.value`: the rational value.  `Formula.nesting`: how deeply brackets are nested.
* `Formula.PowersRational`: all powers have integer exponents or one of the bases zero and one.
* `Formula.read`: the formula of a text.
-/

namespace ExactAlgebra

open Partial

inductive Formula where
  | number (q : ℚ)
  | negative (f : Formula)
  | sum (f g : Formula)
  | difference (f g : Formula)
  | product (f g : Formula)
  | quotient (f g : Formula)
  | power (f g : Formula)
  | brackets (f : Formula)

namespace Formula

/-- The formula after a run of signs. -/
def signed (negated : Bool) (f : Formula) : Formula := if negated then .negative f else f

/-! ## Values -/

/-- The value of a formula, unless it divides by zero or raises zero to an exponent that is not
positive. -/
def value : Formula → Option ℚ
  | number q => some q
  | negative f => f.value.map (-·)
  | sum f g => f.value + g.value
  | difference f g => f.value + g.value.map (-·)
  | product f g => f.value * g.value
  | quotient f g => f.value * inverse g.value
  | power f g => f.value.bind fun x => g.value.bind fun p => power? x p
  | brackets f => f.value

def nesting : Formula → ℕ
  | number _ => 0
  | negative f => f.nesting
  | sum f g | difference f g | product f g | quotient f g | power f g => max f.nesting g.nesting
  | brackets f => f.nesting + 1

/-- Every power in the formula has an integer exponent or one of the bases zero and one. -/
def PowersRational : Formula → Prop
  | number _ => True
  | negative f | brackets f => f.PowersRational
  | sum f g | difference f g | product f g | quotient f g => f.PowersRational ∧ g.PowersRational
  | power f g => f.PowersRational ∧ g.PowersRational ∧
      ∀ x p, f.value = some x → g.value = some p → x = 0 ∨ x = 1 ∨ p.den = 1

/-! ## Reading -/

def digitsValue (digits : List Char) : ℕ :=
  Nat.ofDigits 10 (digits.reverse.map fun c => c.toNat - '0'.toNat)

/-- Reads a decimal number from the front of a text: digits with at most one point among them. -/
def readNumber (text : List Char) : Option (ℚ × List Char) :=
  let whole := text.takeWhile Char.isDigit
  match text.dropWhile Char.isDigit with
  | '.' :: rest =>
    let fraction := rest.takeWhile Char.isDigit
    if whole = [] ∧ fraction = [] then none
    else some (digitsValue whole + digitsValue fraction / 10 ^ fraction.length,
      rest.dropWhile Char.isDigit)
  | rest => if whole = [] then none else some (digitsValue whole, rest)

/-- Takes the run of signs from the front of a text; it counts as a minus if it holds an odd number
of minus signs. -/
def takeSigns : List Char → Bool × List Char
  | '+' :: text => takeSigns text
  | '-' :: text => (!(takeSigns text).1, (takeSigns text).2)
  | text => (false, text)

theorem length_takeSigns (text : List Char) : (takeSigns text).2.length ≤ text.length := by
  fun_induction takeSigns text with
  | case1 text ih => exact Nat.le_succ_of_le ih
  | case2 text ih => exact Nat.le_succ_of_le ih
  | case3 text => exact Nat.le_refl _

/-- The text begins with a number or with a bracket. -/
def startsOperand : List Char → Bool
  | [] => false
  | c :: _ => c.isDigit || c == '.' || c == '('

mutual

/-- Reads an operand from the front of a text.  Here and below, a reader that has not taken a
character where it must gives up. -/
def readOperand (text : List Char) : Option (Formula × List Char) :=
  match text with
  | '(' :: rest => do
    let (f, rest) ← readSum rest
    if rest.head? = some ')' then some (.brackets f, rest.tail) else none
  | text => do
    let (q, rest) ← readNumber text
    some (.number q, rest)
termination_by 4 * text.length

/-- Reads a power; the exponent is all that follows on the same level. -/
def readPower (text : List Char) : Option (Formula × List Char) := do
  let (f, rest) ← readOperand text
  match rest with
  | '^' :: rest =>
    if rest.length < text.length then do
      have := length_takeSigns rest
      let (g, last) ← readPower (takeSigns rest).2
      some (.power f (signed (takeSigns rest).1 g), last)
    else none
  | rest => some (f, rest)
termination_by 4 * text.length + 1

def readProduct (text : List Char) : Option (Formula × List Char) := do
  let (f, rest) ← readPower text
  if rest.length < text.length then extendProduct f rest else none
termination_by 4 * text.length + 2

def extendProduct (f : Formula) (text : List Char) : Option (Formula × List Char) :=
  match text with
  | '*' :: rest => do
    have := length_takeSigns rest
    let (g, last) ← readPower (takeSigns rest).2
    if last.length < rest.length then extendProduct (.product f (signed (takeSigns rest).1 g)) last
    else none
  | '/' :: rest => do
    have := length_takeSigns rest
    let (g, last) ← readPower (takeSigns rest).2
    if last.length < rest.length then extendProduct (.quotient f (signed (takeSigns rest).1 g)) last
    else none
  | text =>
    if startsOperand text then do
      let (g, last) ← readPower text
      if last.length < text.length then extendProduct (.product f g) last else none
    else some (f, text)
termination_by 4 * text.length + 2

def readSum (text : List Char) : Option (Formula × List Char) := do
  have := length_takeSigns text
  let (f, rest) ← readProduct (takeSigns text).2
  if rest.length < text.length then extendSum (signed (takeSigns text).1 f) rest else none
termination_by 4 * text.length + 3

def extendSum (f : Formula) (text : List Char) : Option (Formula × List Char) :=
  if text.head? = some '+' ∨ text.head? = some '-' then do
    have := length_takeSigns text
    let (g, last) ← readProduct (takeSigns text).2
    if last.length < text.length then
      extendSum (if (takeSigns text).1 then .difference f g else .sum f g) last
    else none
  else some (f, text)
termination_by 4 * text.length + 3

end

/-- The text with the brackets closed that it leaves open. -/
def closed (text : List Char) : List Char :=
  text ++ List.replicate (text.count '(' - text.count ')') ')'

def read (text : List Char) : Option Formula :=
  match readSum (closed (text.filter (!Text.isBlank ·))) with
  | some (f, []) => some f
  | _ => none

end Formula

end ExactAlgebra
