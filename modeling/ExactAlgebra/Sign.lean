import ExactAlgebra.Num

/-!
# Signs
-/

namespace ExactAlgebra

/-- Whether an operand counts positively (is added, multiplies) or negatively (is subtracted,
divides). -/
inductive Sign where
  | plus
  | minus
  deriving DecidableEq

namespace Sign

def toNum : Sign → Num
  | .plus => .one
  | .minus => .negativeOne

/-- The integer of a size with the sign in front. -/
def apply (sign : Sign) (size : Nat) : Int :=
  match sign with
  | .plus => size
  | .minus => -size

end Sign

end ExactAlgebra
