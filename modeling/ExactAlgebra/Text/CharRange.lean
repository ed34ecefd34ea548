/-!
# Classes of characters given by ranges

A class is an ascending list of closed ranges of code points.

* `forall_ascii`: what a table shows for the first 128 code points holds of every ASCII character.
-/

namespace ExactAlgebra.Text

/-- The code point lies in one of the ranges, which ascend. -/
def inRanges : List (Nat × Nat) → Nat → Bool
  | [], _ => false
  | (low, high) :: ranges, n => if n < low then false else n ≤ high || inRanges ranges n

theorem forall_ascii {P : Char → Prop} (table : ∀ n : Fin 128, P (Char.ofNat n)) {c : Char}
    (h : c.toNat < 128) : P c := by
  have := table ⟨c.toNat, h⟩
  rwa [Char.ofNat_toNat] at this

end ExactAlgebra.Text
