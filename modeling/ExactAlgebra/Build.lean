import ExactAlgebra.Fault

/-!
# Building numbers and expressions

Every construction draws the next serial number from a supply, so that of two nodes the one built
first has the smaller age.  The supply labels its serial numbers: with the identity as label the
ages are consecutive, and any strictly increasing label leaves room for nodes built elsewhere.

The supply also remembers whether every nested entry was merged in time, that is while it still
counted once.  Nothing that is built depends on it.

* `Build.fresh`: the next age.
* `Build.observe`: remembers whether a merge was timely.
* `Num.new` and the operations on `Num`: exact arithmetic, each result a new node.
-/

namespace ExactAlgebra

/-- The serial numbers that are still to be given out, and the age that each stands for. -/
structure Supply where
  next : Nat
  label : Nat → Nat
  /-- No nested entry has been merged after it had ceased to count once. -/
  timely : Bool

/-- The supply before anything but the constants is built. -/
def Supply.initial : Supply := ⟨Num.constants, id, true⟩

/-- A construction: it draws ages from a supply and may fail. -/
abbrev Build := ExceptT Fault (StateM Supply)

namespace Build

def fresh : Build Nat := modifyGet fun s => (s.label s.next, { s with next := s.next + 1 })

/-- Remembers whether a nested entry still counts once when its turn to be merged comes. -/
def observe (counts : Bool) : Build Unit :=
  modify fun s => { s with timely := s.timely && counts }

def run {α : Type} (m : Build α) : Except Fault α := (m Supply.initial).1

end Build

namespace Num

def new (r : Ratio) : Build Num := return ⟨r, ← Build.fresh⟩

def ofFraction (numerator denominator : Int) : Build Num :=
  if h : denominator = 0 then throw (.divisionByZero numerator)
  else new (.reduce numerator denominator h)

def add (a b : Num) : Build Num := new (a.toRatio.add b.toRatio)
def subtract (a b : Num) : Build Num := new (a.toRatio.subtract b.toRatio)
def multiply (a b : Num) : Build Num := new (a.toRatio.multiply b.toRatio)
def negate (a : Num) : Build Num := new a.toRatio.negate

/-- The quotient, unless the divisor is zero. -/
def divide (a b : Num) : Build Num :=
  if h : b.numerator = 0 then throw (.divisionByZero a.value)
  else new (a.toRatio.divide b.toRatio h)

/-- The multiplicative inverse, unless the number is zero. -/
def reciprocal (a : Num) : Build Num :=
  if h : a.numerator = 0 then throw (.divisionByZero 1) else new (a.toRatio.reciprocal h)

/-- The absolute value: the number itself unless it is negative. -/
def magnitude (a : Num) : Build Num := if a.isNegative then a.negate else return a

end Num

end ExactAlgebra
