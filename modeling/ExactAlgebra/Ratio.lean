import ExactAlgebra.Ordered

/-!
# Fractions in lowest terms

A fraction is stored as its numerator and its denominator.  They are coprime, and the denominator is
positive, so that the fraction of a number is unique and zero is `0/1`.  Everything that is worked
out goes through `Ratio.reduce`, which moves the sign into the numerator and divides by the greatest
common divisor.

* `Ratio.reduce`: the fraction of two integers.
* `Ratio.add`, `Ratio.multiply`, `Ratio.divide` and so on: arithmetic on the stored pairs.
* `Ratio.equals`, `Ratio.less`, `Ratio.ordered`: comparison of the stored pairs.
* `Ratio.toRat`: the rational number of a fraction.
-/

namespace ExactAlgebra

structure Ratio where
  numerator : Int
  denominator : Int
  positive : 0 < denominator
  coprime : Int.gcd numerator denominator = 1

namespace Ratio

/-! ## Construction -/

/-- The sign of a denominator moved into the numerator. -/
def signed (p q : Int) : Int × Int := if q < 0 then (-p, -q) else (p, q)

theorem signed_pos (p : Int) {q : Int} (h : q ≠ 0) : 0 < (signed p q).2 := by
  unfold signed
  split
  · exact Int.neg_pos_of_neg ‹_›
  · exact Int.lt_iff_le_and_ne.mpr ⟨Int.not_lt.mp ‹_›, h.symm⟩

/-- Two integers, the second of them positive, divided by their greatest common divisor. -/
def lowest (p q : Int) (h : 0 < q) : Ratio where
  numerator := p / Int.gcd p q
  denominator := q / Int.gcd p q
  positive := Int.ediv_pos_of_pos_of_dvd h (Int.natCast_nonneg _) (Int.gcd_dvd_right ..)
  coprime := Int.gcd_ediv_gcd_ediv_gcd (Int.gcd_pos_of_ne_zero_right _ (Int.ne_of_gt h))

def reduce (p q : Int) (h : q ≠ 0) : Ratio :=
  lowest (signed p q).1 (signed p q).2 (signed_pos p h)

def ofInt (n : Int) : Ratio := ⟨n, 1, Int.one_pos, Int.gcd_one⟩

instance (n : Nat) : OfNat Ratio n := ⟨ofInt n⟩

instance : Inhabited Ratio := ⟨0⟩

theorem lowest_of_coprime {p q : Int} (h : 0 < q) (hpq : Int.gcd p q = 1) :
    lowest p q h = ⟨p, q, h, hpq⟩ := by
  unfold lowest
  congr 1 <;> rw [hpq] <;> exact Int.ediv_one _

theorem reduce_of_coprime {p q : Int} (h : 0 < q) (hpq : Int.gcd p q = 1) :
    reduce p q (Int.ne_of_gt h) = ⟨p, q, h, hpq⟩ := by
  have hsigned : signed p q = (p, q) := if_neg (Int.not_lt.mpr (Int.le_of_lt h))
  unfold reduce
  simp only [hsigned]
  exact lowest_of_coprime h hpq

theorem denominator_ne_zero (r : Ratio) : r.denominator ≠ 0 := Int.ne_of_gt r.positive

/-! ## Arithmetic -/

def add (r s : Ratio) : Ratio :=
  reduce (r.numerator * s.denominator + r.denominator * s.numerator) (r.denominator * s.denominator)
    (Int.mul_ne_zero r.denominator_ne_zero s.denominator_ne_zero)

def subtract (r s : Ratio) : Ratio :=
  reduce (r.numerator * s.denominator - r.denominator * s.numerator) (r.denominator * s.denominator)
    (Int.mul_ne_zero r.denominator_ne_zero s.denominator_ne_zero)

def multiply (r s : Ratio) : Ratio :=
  reduce (r.numerator * s.numerator) (r.denominator * s.denominator)
    (Int.mul_ne_zero r.denominator_ne_zero s.denominator_ne_zero)

def divide (r s : Ratio) (h : s.numerator ≠ 0) : Ratio :=
  reduce (r.numerator * s.denominator) (r.denominator * s.numerator)
    (Int.mul_ne_zero r.denominator_ne_zero h)

def negate (r : Ratio) : Ratio := reduce (-r.numerator) r.denominator r.denominator_ne_zero

instance : Neg Ratio := ⟨negate⟩

theorem neg_eq (r : Ratio) :
    -r = ⟨-r.numerator, r.denominator, r.positive, by rw [Int.neg_gcd]; exact r.coprime⟩ :=
  reduce_of_coprime r.positive _

def reciprocal (r : Ratio) (h : r.numerator ≠ 0) : Ratio := reduce r.denominator r.numerator h

def power (r : Ratio) (k : Nat) : Ratio :=
  reduce (r.numerator.pow k) (r.denominator.pow k) (Int.pow_ne_zero r.denominator_ne_zero)

/-- The sign of the fraction: `1`, `0` or `-1`. -/
def signum (r : Ratio) : Int :=
  (if 0 < r.numerator then 1 else 0) - (if r.numerator < 0 then 1 else 0)

/-! ## Comparison -/

def equals (r s : Ratio) : Bool := r.numerator == s.numerator && r.denominator == s.denominator

def less (r s : Ratio) : Bool := r.numerator * s.denominator < s.numerator * r.denominator

def ordered : Ordered Ratio := ⟨less, equals⟩

/-! ## Rational numbers -/

def toRat (r : Ratio) : Rat where
  num := r.numerator
  den := r.denominator.toNat
  den_nz := by have := r.positive; omega
  reduced := by
    have h : Nat.gcd r.numerator.natAbs r.denominator.natAbs = 1 := r.coprime
    rwa [show r.denominator.natAbs = r.denominator.toNat by have := r.positive; omega] at h

def ofRat (q : Rat) : Ratio where
  numerator := q.num
  denominator := q.den
  positive := Int.natCast_pos.mpr q.den_pos
  coprime := q.reduced

end Ratio

end ExactAlgebra
