import ExactAlgebra.Expr.Basic

/-!
# The order of entries

The entries of a product are ordered by their bases and those of a sum by their terms: first by
tier, that is by kind of node, then variables by name and other nodes by age.

* `compareBases`: numbers, variables, products, powers, sums.
* `compareTerms`: powers, products, variables, sums, numbers.
-/

namespace ExactAlgebra.Expr

def baseTier : Expr → Nat
  | .num _ => 0
  | .var _ => 1
  | .product .. => 2
  | .power .. => 3
  | .sum .. => 4

def termTier : Expr → Nat
  | .power .. => 1
  | .product .. => 2
  | .var _ => 3
  | .sum .. => 4
  | .num _ => 5

/-- The order of two nodes of one tier: equal nodes are level, variables go by name and other
nodes by age. -/
def seniority : Expr → Expr → Ordering
  | .var a, .var b => if a == b then .eq else if a < b then .lt else .gt
  | a, b => if a == b then .eq else if a.age < b.age then .lt else .gt

/-- The order of two nodes by tier, then within their tier. -/
def compareBy (tier : Expr → Nat) (a b : Expr) : Ordering :=
  if tier a < tier b then .lt
  else if tier b < tier a then .gt
  else seniority a b

/-- The order of the entries of a product, given their bases. -/
def compareBases : Expr → Expr → Ordering := compareBy baseTier

/-- The order of the entries of a sum, given their terms. -/
def compareTerms : Expr → Expr → Ordering := compareBy termTier

end ExactAlgebra.Expr
