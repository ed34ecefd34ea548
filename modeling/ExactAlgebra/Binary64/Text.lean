import ExactAlgebra.Binary64.Shortest
import ExactAlgebra.Numeral
import ExactAlgebra.Text.Integer

/-!
# Binary64 numbers as text

A number is written with the fewest digits that tell it apart: positionally from `0.0001` up to
sixteen digits before the point, with a digit on either side of it, and otherwise with an exponent
of two digits at least.

* `Binary64.text`: how a number is written.
* `Binary64.ofChars?`: reads a number.
-/

namespace ExactAlgebra.Binary64

/-! ## Writing -/

def exponentText (n : Int) : List Char :=
  let digits := Nat.toDigits 10 n.natAbs
  'e' :: (if n < 0 then '-' else '+') :: (if digits.length < 2 then '0' :: digits else digits)

/-- Digits with a point after the first `point` of them, zeros filled in on either side. -/
def positional (digits : List Char) (point : Int) : List Char :=
  let whole := digits.take point.toNat ++ List.replicate (point.toNat - digits.length) '0'
  let fraction := List.replicate (-point).toNat '0' ++ digits.drop point.toNat
  (if whole.isEmpty then ['0'] else whole) ++ '.' :: (if fraction.isEmpty then ['0'] else fraction)

/-- Digits with a point after the first one, and an exponent. -/
def scientific (digits : List Char) (point : Int) : List Char :=
  match digits with
  | [] => []
  | [d] => d :: exponentText (point - 1)
  | d :: digits => d :: '.' :: digits ++ exponentText (point - 1)

def decimalText (d : Decimal) : List Char :=
  let all := Nat.toDigits 10 d.digits
  let point := (all.length : Int) + d.exponent
  let digits := (all.reverse.dropWhile (· == '0')).reverse
  if -4 < point ∧ point ≤ 16 then positional digits point else scientific digits point

def magnitudeText (magnitude : Nat) : List Char :=
  if magnitude = 0 then "0.0".toList
  else if magnitude < infinity then decimalText (shortest magnitude)
  else if magnitude = infinity then "inf".toList
  else "nan".toList

/-- How a number is written; what is no number has no sign. -/
def text (bits : Nat) : String :=
  let size := magnitudeText (magnitude bits)
  String.ofList (if isNegative bits ∧ magnitude bits ≤ infinity then '-' :: size else size)

/-! ## Reading -/

def notNumber : Nat := 0x7ff8000000000000

/-- The magnitude of a numeral times a power of ten.  What is far beyond the greatest magnitude or
below the least one is not worked out. -/
def scaledMagnitude (n : Numeral) (exponent : Int) : Nat :=
  let digits := Text.decimal n.digits
  let top := (digitCount digits : Int) - n.places + exponent
  if digits = 0 ∨ top < -400 then 0
  else if 400 < top then infinity
  else
    let q := n.value * powerOfTen exponent
    (magnitudeBits? q.num.natAbs q.den).getD infinity

def magnitudeOf? (text : List Char) : Option Nat :=
  let isExponent (c : Char) : Bool := c == 'e' || c == 'E'
  match (String.ofList (text.map Char.toLower)) with
  | "inf" => some infinity
  | "infinity" => some infinity
  | "nan" => some notNumber
  | _ => do
    let n ← Numeral.ofChars? (text.takeWhile (!isExponent ·))
    match text.dropWhile (!isExponent ·) with
    | [] => return scaledMagnitude n 0
    | _ :: exponent =>
      if exponent.all fun c => c.isDigit || c == '-' || c == '+' then
        return scaledMagnitude n (← Text.integer? exponent)
      else none

def ofChars? (text : List Char) : Option Nat :=
  match Num.signed (Text.trim text) with
  | (.plus, size) => magnitudeOf? size
  | (.minus, size) => (magnitudeOf? size).map (signBit + ·)

end ExactAlgebra.Binary64
