import ExactAlgebra.Num

/-!
# Expressions

An expression is a number, a variable, a power, a product of powers with a rational coefficient, or
a sum of terms with rational coefficients and a rational constant.  Every node but a variable has
an age, the serial number of its construction; variables are told apart by their names.

* `Expr.beq`: equality of canonical forms.  Ages do not count, and neither does the order of the
  entries of a product or of a sum.
-/

namespace ExactAlgebra

inductive Expr where
  | num (n : Num)
  | var (name : String)
  /-- The power `base ^ exponent`. -/
  | power (age : Nat) (base exponent : Expr)
  /-- The coefficient times `base ^ exponent` for every entry `(base, exponent)`. -/
  | product (age : Nat) (coefficient : Num) (factors : List (Expr × Expr))
  /-- The constant plus `coefficient * term` for every entry `(term, coefficient)`. -/
  | sum (age : Nat) (constant : Num) (summands : List (Expr × Num))

namespace Expr

instance : Inhabited Expr := ⟨.num default⟩

def zero : Expr := .num .zero
def one : Expr := .num .one
def negativeOne : Expr := .num .negativeOne

def isOne : Expr → Bool
  | .num n => n.isOne
  | _ => false

def isZero : Expr → Bool
  | .num n => n.isZero
  | _ => false

def isNum : Expr → Bool
  | .num _ => true
  | _ => false

def isProduct : Expr → Bool
  | .product .. => true
  | _ => false

def isSum : Expr → Bool
  | .sum .. => true
  | _ => false

theorem num_or (e : Expr) : (∃ n, e = .num n) ∨ e.isNum = false := by
  cases e with
  | num n => exact .inl ⟨n, rfl⟩
  | _ => exact .inr rfl

theorem isZero_of_not_num {e : Expr} (h : e.isNum = false) : e.isZero = false := by
  cases e with
  | num n => exact nomatch h
  | _ => rfl

theorem isOne_of_not_num {e : Expr} (h : e.isNum = false) : e.isOne = false := by
  cases e with
  | num n => exact nomatch h
  | _ => rfl

/-- The serial number of a node's construction; variables have none. -/
def age : Expr → Nat
  | .num n => n.age
  | .var _ => 0
  | .power age _ _ => age
  | .product age _ _ => age
  | .sum age _ _ => age

/-! ## Height and size -/

mutual

/-- The number of levels below a node. -/
def height : Expr → Nat
  | .num _ => 0
  | .var _ => 0
  | .power _ b e => 1 + max b.height e.height
  | .product _ _ factors => 1 + factorsHeight factors
  | .sum _ _ summands => 1 + summandsHeight summands

def factorsHeight : List (Expr × Expr) → Nat
  | [] => 0
  | (b, e) :: factors => max (max b.height e.height) (factorsHeight factors)

def summandsHeight : List (Expr × Num) → Nat
  | [] => 0
  | (t, _) :: summands => max t.height (summandsHeight summands)

end

mutual

/-- The number of nodes, those of exponents included. -/
def size : Expr → Nat
  | .num _ => 1
  | .var _ => 1
  | .power _ b e => 1 + b.size + e.size
  | .product _ _ factors => 1 + factorsSize factors
  | .sum _ _ summands => 1 + summandsSize summands

def factorsSize : List (Expr × Expr) → Nat
  | [] => 0
  | (b, e) :: factors => b.size + e.size + factorsSize factors

def summandsSize : List (Expr × Num) → Nat
  | [] => 0
  | (t, _) :: summands => t.size + summandsSize summands

end

mutual

/-- How deeply symbolic exponents nest: a rational exponent counts for nothing. -/
def exponentDepth : Expr → Nat
  | .num _ => 0
  | .var _ => 0
  | .power _ b e => max b.exponentDepth (if e.isNum then 0 else 1 + e.exponentDepth)
  | .product _ _ factors => factorsExponentDepth factors
  | .sum _ _ summands => summandsExponentDepth summands

def factorsExponentDepth : List (Expr × Expr) → Nat
  | [] => 0
  | (b, e) :: factors =>
    max (max b.exponentDepth (if e.isNum then 0 else 1 + e.exponentDepth))
      (factorsExponentDepth factors)

def summandsExponentDepth : List (Expr × Num) → Nat
  | [] => 0
  | (t, _) :: summands => max t.exponentDepth (summandsExponentDepth summands)

end

/-! ## Equality -/

/-- The list without its first element that passes a test, if there is one. -/
def removeFirst? {α : Type} (p : α → Bool) : List α → Option (List α)
  | [] => none
  | a :: l => if p a then some l else (removeFirst? p l).map (a :: ·)

mutual

/-- Equality of canonical forms: numbers by value, variables by name, powers by their parts,
products and sums by their rational part and by their entries in any order. -/
def beq : Expr → Expr → Bool
  | .num a, .num b => a == b
  | .var a, .var b => a == b
  | .power _ b e, .power _ b' e' => b.beq b' && e.beq e'
  | .product _ c factors, .product _ c' factors' =>
    c == c' && factorsMatch factors factors'
  | .sum _ c summands, .sum _ c' summands' =>
    c == c' && summandsMatch summands summands'
  | _, _ => false

/-- The entries of the first list equal those of the second, each one of them. -/
def factorsMatch : List (Expr × Expr) → List (Expr × Expr) → Bool
  | [], others => others.isEmpty
  | (b, e) :: factors, others =>
    match removeFirst? (fun entry => b.beq entry.1 && e.beq entry.2) others with
    | some rest => factorsMatch factors rest
    | none => false

def summandsMatch : List (Expr × Num) → List (Expr × Num) → Bool
  | [], others => others.isEmpty
  | (t, c) :: summands, others =>
    match removeFirst? (fun entry => t.beq entry.1 && c == entry.2) others with
    | some rest => summandsMatch summands rest
    | none => false

end

instance : BEq Expr := ⟨beq⟩

end Expr

end ExactAlgebra
