/-!
# Derived comparisons

A type that can tell whether one value is less than another, and whether two values are equal, has
all the other comparisons, too.

* `Relation`: the comparison operators.
* `Ordered.holds`: all of them by less and equal.
-/

namespace ExactAlgebra

namespace Script

inductive Relation where
  | eq
  | ne
  | lt
  | le
  | gt
  | ge
  deriving DecidableEq

/-- The relation with its sides exchanged. -/
def Relation.reflected : Relation → Relation
  | .eq => .eq
  | .ne => .ne
  | .lt => .gt
  | .le => .ge
  | .gt => .lt
  | .ge => .le

end Script

open Script

/-- The two comparisons from which the others are derived. -/
structure Ordered (α : Type) where
  less : α → α → Bool
  equal : α → α → Bool

namespace Ordered

variable {α : Type} (o : Ordered α)

def lessOrEqual (a b : α) : Bool := o.less a b || o.equal a b

def holds : Relation → α → α → Bool
  | .eq, a, b => o.equal a b
  | .ne, a, b => !o.equal a b
  | .lt, a, b => o.less a b
  | .le, a, b => o.lessOrEqual a b
  | .gt, a, b => !o.lessOrEqual a b
  | .ge, a, b => !o.less a b

def texts : Ordered String := ⟨(· < ·), (· == ·)⟩

def numbers : Ordered Rat := ⟨(· < ·), (· == ·)⟩

end Ordered

end ExactAlgebra
