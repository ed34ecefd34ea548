import ExactAlgebra.Proofs.Content.Merged

/-!
# Settled expressions

A text is read back to what was printed only if building it merges nothing that stands apart in the
expression: a symbolic power among the entries of a product, and a negated sum, which is printed as
its terms in brackets after a minus.  An expression is settled if no node of it has such an entry.

* `Settled`: no node would be changed if it were built again from its printed entries.
* `Settled.merged`: in particular all powers are merged.
-/

namespace ExactAlgebra.Expr

/-- No node of the expression would be changed if it were built again from its entries. -/
inductive Settled : Expr → Prop where
  | num (n : Num) : Settled (.num n)
  | var (name : String) : Settled (.var name)
  | power (age : Nat) {base exponent : Expr} (settled_base : Settled base)
    (settled_exponent : Settled exponent) : Settled (.power age base exponent)
  /-- A symbolic power has no exponent one in a product, and a negated sum is no product. -/
  | product (age : Nat) {coefficient : Num} {factors : List (Expr × Expr)}
    (settled_base : ∀ p ∈ factors, Settled p.1) (settled_exponent : ∀ p ∈ factors, Settled p.2)
    (power : ∀ p ∈ factors, p.2.isOne = true → p.1.isSymbolicPower = false)
    (negated : coefficient.value = -1 → factors.length = 1 →
      ∀ p ∈ factors, p.2.isOne = true → p.1.isSum = false) :
    Settled (.product age coefficient factors)
  /-- A sum is not negated in a sum. -/
  | sum (age : Nat) {constant : Num} {summands : List (Expr × Num)}
    (settled_term : ∀ p ∈ summands, Settled p.1)
    (negated : ∀ p ∈ summands, p.1.isSum = true → p.2.value ≠ -1) :
    Settled (.sum age constant summands)

theorem Settled.merged {e : Expr} (h : e.Settled) : e.Merged := by
  induction h with
  | num n => exact .num n
  | var name => exact .var name
  | power age _ _ hb he => exact .power age hb he
  | product age _ _ power _ hb he => exact .product age hb he power
  | sum age _ _ ht => exact .sum age ht

end ExactAlgebra.Expr
