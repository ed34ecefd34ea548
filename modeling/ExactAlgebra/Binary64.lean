/-!
# Binary64

A number of the binary64 format is given by its bits: a sign, eleven bits of exponent and 52 bits of
fraction.  A rational number is rounded to the nearest number of the format, ties to the even
mantissa, with gradual underflow.  A number too large for the format has no rounding.

* `Binary64.bits?`: the bits of a rational number.
* `Binary64.value?`: the rational number of some bits.
* `two_mul_roundHalfEven_le`, `le_two_mul_roundHalfEven`: rounding a quotient is exact to half a
  unit.
-/

namespace ExactAlgebra

/-- The integer nearest to a quotient; a tie goes to the even one. -/
def roundHalfEven (n d : Nat) : Nat :=
  let q := n / d
  let twice := 2 * (n % d)
  if twice < d then q
  else if d < twice then q + 1
  else if q % 2 = 0 then q else q + 1

/-- The rounded quotient is not above the quotient by more than a half. -/
theorem two_mul_roundHalfEven_le (n d : Nat) : 2 * (roundHalfEven n d * d) ≤ 2 * n + d := by
  have split := Nat.div_add_mod n d
  have comm : n / d * d = d * (n / d) := Nat.mul_comm _ _
  unfold roundHalfEven
  simp only []
  split
  · omega
  · split
    · rw [Nat.add_mul]; omega
    · split
      · omega
      · rw [Nat.add_mul]; omega

/-- The rounded quotient is not below the quotient by more than a half. -/
theorem le_two_mul_roundHalfEven (n : Nat) {d : Nat} (h : 0 < d) :
    2 * n ≤ 2 * (roundHalfEven n d * d) + d := by
  have split := Nat.div_add_mod n d
  have comm : n / d * d = d * (n / d) := Nat.mul_comm _ _
  have below := Nat.mod_lt n h
  unfold roundHalfEven
  simp only []
  split
  · omega
  · split
    · rw [Nat.add_mul]; omega
    · split
      · omega
      · rw [Nat.add_mul]; omega

namespace Binary64

/-- The bits of infinity, which are those of the least magnitude beyond the finite ones. -/
def infinity : Nat := 0x7ff0000000000000

def twoTo (exponent : Nat) : Nat := Nat.pow 2 exponent

def signBit : Nat := twoTo 63

def isNegative (bits : Nat) : Bool := signBit ≤ bits

def magnitude (bits : Nat) : Nat := bits % signBit

def negate (bits : Nat) : Nat := if isNegative bits then bits - signBit else bits + signBit

def isFinite (bits : Nat) : Bool := magnitude bits < infinity

def isInfinite (bits : Nat) : Bool := magnitude bits == infinity

/-! ## Values -/

def unitsOf (magnitude : Nat) : Nat :=
  let exponent := magnitude / twoTo 52
  if exponent = 0 then magnitude else (twoTo 52 + magnitude % twoTo 52) * twoTo (exponent - 1)

def magnitudeValue (magnitude : Nat) : Rat := mkRat (unitsOf magnitude) (twoTo 1074)

def value? (bits : Nat) : Option Rat :=
  if isFinite bits then
    let size := magnitudeValue (magnitude bits)
    some (if isNegative bits then -size else size)
  else none

/-! ## Rounding -/

/-- The quotient in units of `2 ^ (unit - 1074)`, rounded down. -/
def wholeUnits (n d unit : Nat) : Nat := n * twoTo 1074 / (d * twoTo unit)

/-- The exponent, counted from the least one, of the unit in which a positive quotient has 53 bits;
zero if it has fewer bits even in the least unit. -/
def unitOf (n d : Nat) : Nat := Nat.log2 (wholeUnits n d 0) - 52

/-- The bits of the binary64 number nearest to a non-negative quotient, unless it is too large. -/
def magnitudeBits? (n d : Nat) : Option Nat :=
  let unit := unitOf n d
  let bits := unit * twoTo 52 + roundHalfEven (n * twoTo 1074) (d * twoTo unit)
  if bits < infinity then some bits else none

/-- The bits of the binary64 number nearest to a rational number, unless it is too large. -/
def bits? (q : Rat) : Option Nat :=
  (magnitudeBits? q.num.natAbs q.den).map fun bits => if q.num < 0 then signBit + bits else bits

def power (base exponent : Nat) : Nat :=
  ((Float.ofBits base.toUInt64).pow (Float.ofBits exponent.toUInt64)).toBits.toNat

end Binary64

end ExactAlgebra
