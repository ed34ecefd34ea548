import ExactAlgebra.Ratio

/-!
# Exact numbers

A number of this library is a fraction in lowest terms together with its age, the serial number of
its construction.  The age never takes part in arithmetic or equality; it only tells which of two
nodes was built first.

The five constants are older than everything that is built later, in the order in which they are
declared here.
-/

namespace ExactAlgebra

structure Num extends Ratio where
  age : Nat

namespace Num

instance : Inhabited Num := ⟨⟨0, 0⟩⟩

def zero : Num := ⟨0, 0⟩
def one : Num := ⟨1, 1⟩
def two : Num := ⟨2, 2⟩
def ten : Num := ⟨10, 3⟩
def negativeOne : Num := ⟨-1, 4⟩

/-- The number of constants, all of them older than every built node. -/
def constants : Nat := 5

def value (n : Num) : Rat := n.toRat

/-- Ages do not count. -/
instance : BEq Num := ⟨fun n m => n.equals m.toRatio⟩

def isZero (n : Num) : Bool := n.numerator == 0
def isOne (n : Num) : Bool := n == one
def isNegativeOne (n : Num) : Bool := n == negativeOne
def isInteger (n : Num) : Bool := n.denominator == 1
def isNegative (n : Num) : Bool := n.numerator < 0

end Num

end ExactAlgebra
