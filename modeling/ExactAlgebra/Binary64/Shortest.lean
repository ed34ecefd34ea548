import ExactAlgebra.Binary64

/-!
# Shortest decimals

A finite binary64 number is told apart from all others by a decimal of at most seventeen digits.
The shortest such decimal is looked for on the grids of one digit, two digits and so on; of two that
are equally short the nearer one counts, and of two that are equally near the even one.

* `Binary64.shortest`: the digits and the exponent of the shortest decimal.
-/

namespace ExactAlgebra.Binary64

/-- The number `digits * 10 ^ exponent`. -/
structure Decimal where
  digits : Nat
  exponent : Int

def powerOfTen (n : Int) : Rat := (10 : Rat) ^ n

def Decimal.value (d : Decimal) : Rat := d.digits * powerOfTen d.exponent

def digitCount (n : Nat) : Nat := (Nat.toDigits 10 n).length

def scaleOf (q : Rat) : Int :=
  let guess := (digitCount q.num.natAbs : Int) - digitCount q.den
  if q < powerOfTen guess then guess else guess + 1

def readsBack (magnitude : Nat) (d : Decimal) : Bool :=
  let q := d.value
  magnitudeBits? q.num.natAbs q.den == some magnitude

/-- The decimal of some digits that is rounded to the magnitude of a value and lies nearest to
it. -/
def onGrid? (magnitude : Nat) (value : Rat) (digits : Nat) : Option Decimal :=
  let exponent := scaleOf value - digits
  let steps := value / powerOfTen exponent
  let below : Decimal := ⟨steps.floor.toNat, exponent⟩
  let above : Decimal := ⟨steps.floor.toNat + 1, exponent⟩
  let rest := steps - steps.floor
  let first := rest < 1 / 2 ∨ rest = 1 / 2 ∧ below.digits % 2 = 0
  let (near, far) := if first then (below, above) else (above, below)
  if readsBack magnitude near then some near
  else if readsBack magnitude far then some far
  else none

def shortest (magnitude : Nat) : Decimal :=
  let value := magnitudeValue magnitude
  (((List.range 17).findSome? fun n => onGrid? magnitude value (n + 1))).getD ⟨0, 0⟩

end ExactAlgebra.Binary64
