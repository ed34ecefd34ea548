import ExactAlgebra.Sign
import ExactAlgebra.Text.Blank
import ExactAlgebra.Text.Digit

/-!
# Numerals

A numeral is a run of ASCII digits with at most one decimal point and at least one digit.  A number
is written as a numeral or as two numerals with a slash, with a sign in front if need be.

* `Numeral.ofChars?`: reads a whole text as a numeral.
* `Numeral.span`: the longest numeral-like start of a text.
* `Num.read?`: reads a signed number.
-/

namespace ExactAlgebra

/-- Digits with an optional decimal point: `fraction` holds the digits after the point. -/
structure Numeral where
  whole : List Char
  fraction : Option (List Char)
  deriving DecidableEq

namespace Numeral

def chars (n : Numeral) : List Char :=
  match n.fraction with
  | none => n.whole
  | some fraction => n.whole ++ '.' :: fraction

def digits (n : Numeral) : List Char := n.whole ++ n.fraction.getD []

def places (n : Numeral) : Nat := (n.fraction.getD []).length

/-- The numeral as an integer once the point has moved a number of places to the right. -/
def scaled (n : Numeral) (shift : Nat) : Nat :=
  Text.decimal n.digits * Text.powerOfTen (shift - n.places)

def value (n : Numeral) : Rat := (Text.decimal n.digits : Rat) / Text.powerOfTen n.places

/-- The longest start of the text with digits and at most one point among them, and its length. -/
def span (text : List Char) : Numeral :=
  let whole := text.takeWhile Char.isDigit
  match text.dropWhile Char.isDigit with
  | '.' :: rest => ⟨whole, some (rest.takeWhile Char.isDigit)⟩
  | _ => ⟨whole, none⟩

def ofChars? (text : List Char) : Option Numeral :=
  let n := span text
  if n.chars = text ∧ n.digits ≠ [] then some n else none

/-- The start that `span` takes is a start of the text. -/
theorem chars_span_isPrefix (text : List Char) : (span text).chars <+: text := by
  have split := List.takeWhile_append_dropWhile (p := Char.isDigit) (l := text)
  unfold span
  split
  next rest h =>
    rw [h] at split
    refine ⟨rest.dropWhile Char.isDigit, ?_⟩
    simp only [chars, List.append_assoc, List.cons_append]
    rw [List.takeWhile_append_dropWhile, split]
  next => exact ⟨_, split⟩

end Numeral

namespace Num

/-- The sign in front of a number, and what follows it. -/
def signed : List Char → Sign × List Char
  | '-' :: text => (.minus, text)
  | '+' :: text => (.plus, text)
  | text => (.plus, text)

/-- Reads a number: a sign, a numeral and perhaps a slash and a second numeral, blanks around it
not counted.  Numerator and denominator are scaled by one power of ten. -/
def read? (text : List Char) : Option (Int × Int) :=
  let (sign, body) := signed (Text.trim text)
  let numerator := Numeral.ofChars? (body.takeWhile (· != '/'))
  match body.dropWhile (· != '/') with
  | [] => do
    let n ← numerator
    return (sign.apply (n.scaled n.places), Text.powerOfTen n.places)
  | _ :: denominator => do
    let n ← numerator
    let d ← Numeral.ofChars? denominator
    let shift := max n.places d.places
    return (sign.apply (n.scaled shift), d.scaled shift)

end Num

end ExactAlgebra
