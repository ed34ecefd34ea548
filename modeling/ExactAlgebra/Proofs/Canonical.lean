import ExactAlgebra.Expr.Canonical
import ExactAlgebra.Proofs.Equality
import ExactAlgebra.Proofs.Ledger

/-!
# Canonical form

An expression is canonical if each of its nodes has the form that the constructions give to it: no
power that collapses, no product with a number among its bases, no sum with a coefficient left
inside a term, nothing nested that could be merged, and no two equal keys.

* `PowerForm`, `ProductForm`, `SumForm`: what is asked of the single nodes.
* `Canonical`: every node of an expression has its form.
* `ofPower_canonical`, `ofProduct_canonical`, `ofSum_canonical`, `neg_canonical`: the constructions
  make canonical expressions of canonical ones.
-/

namespace ExactAlgebra

/-- The fraction is in lowest terms, with a positive denominator. -/
def Num.Reduced (n : Num) : Prop := 0 < n.denominator ∧ Int.gcd n.numerator n.denominator = 1

theorem Num.reduced (n : Num) : n.Reduced := ⟨n.positive, n.coprime⟩

namespace Expr

structure PowerForm (base exponent : Expr) : Prop where
  base_ne_one : base.isOne = false
  exponent_ne_zero : exponent.isZero = false
  exponent_ne_one : exponent.isOne = false
  /-- A number is not raised to an integer. -/
  not_integer : ∀ b e, base = .num b → exponent = .num e → e.isInteger = false
  /-- Zero is raised to nothing but a symbolic exponent. -/
  zero_base : base.isZero = true → exponent.isNum = false

structure ProductForm (coefficient : Num) (factors : List (Expr × Expr)) : Prop where
  coefficient_ne_zero : coefficient.isZero = false
  entries : 2 ≤ factors.length ∨ factors.length = 1 ∧ coefficient.isOne = false
  distinct : factors.Pairwise fun p q => (p.1 == q.1) = false
  base_not_num : ∀ p ∈ factors, p.1.isNum = false
  exponent_ne_zero : ∀ p ∈ factors, p.2.isZero = false
  /-- No entry is a product with the exponent one. -/
  nested : ∀ p ∈ factors, p.1.isProduct = true → p.2.isOne = false

/-- The coefficient of a product; that of anything else is one. -/
def coefficient : Expr → Num
  | .product _ c _ => c
  | _ => .one

structure SumForm (constant : Num) (summands : List (Expr × Num)) : Prop where
  entries : 2 ≤ summands.length + (if constant.isZero then 0 else 1)
  distinct : summands.Pairwise fun p q => (p.1 == q.1) = false
  term_not_num : ∀ p ∈ summands, p.1.isNum = false
  /-- The coefficient of a term stands outside the term. -/
  term_coefficient : ∀ p ∈ summands, p.1.coefficient.isOne = true
  coefficient_ne_zero : ∀ p ∈ summands, p.2.isZero = false
  /-- No entry is a sum with the coefficient one. -/
  nested : ∀ p ∈ summands, p.1.isSum = true → p.2.isOne = false

/-- Every node of the expression has its form. -/
inductive Canonical : Expr → Prop where
  | num (n : Num) (reduced : n.Reduced) : Canonical (.num n)
  | var (name : String) : Canonical (.var name)
  | power (age : Nat) {base exponent : Expr} (canonical_base : Canonical base)
    (canonical_exponent : Canonical exponent) (form : PowerForm base exponent) :
    Canonical (.power age base exponent)
  | product (age : Nat) {coefficient : Num} {factors : List (Expr × Expr)}
    (reduced : coefficient.Reduced) (canonical_base : ∀ p ∈ factors, Canonical p.1)
    (canonical_exponent : ∀ p ∈ factors, Canonical p.2) (form : ProductForm coefficient factors) :
    Canonical (.product age coefficient factors)
  | sum (age : Nat) {constant : Num} {summands : List (Expr × Num)} (reduced : constant.Reduced)
    (canonical_term : ∀ p ∈ summands, Canonical p.1) (reduced_entry : ∀ p ∈ summands, p.2.Reduced)
    (form : SumForm constant summands) : Canonical (.sum age constant summands)

/-- The rational factor: the value of a number, the coefficient of a product, and one otherwise. -/
def scale : Expr → ℚ
  | .num n => n.value
  | .product _ c _ => c.value
  | _ => 1

theorem scale_congr {e e' : Expr} (h : e.beq e' = true) : e.scale = e'.scale := by
  cases e <;> cases e' <;>
    simp only [beq, Num.beq_iff, Bool.and_eq_true, Bool.false_eq_true] at h <;> try rfl
  case num => exact h
  case product => exact h.1

theorem scale_of_coefficient {e : Expr} (hn : e.isNum = false) (h : e.coefficient.isOne = true) :
    e.scale = 1 := by
  cases e with
  | num n => exact nomatch hn
  | product age c factors => exact Num.isOne_iff.mp h
  | _ => rfl

theorem ProductForm.ne_nil {c : Num} {factors : List (Expr × Expr)} (form : ProductForm c factors) :
    factors ≠ [] := by
  rintro rfl
  rcases form.entries with h | ⟨h, -⟩ <;> simp at h

theorem SumForm.ne_nil {c : Num} {summands : List (Expr × Num)} (form : SumForm c summands) :
    summands ≠ [] := by
  rintro rfl
  have h := form.entries
  split at h <;> simp at h

/-- A product with one entry has a coefficient. -/
theorem ProductForm.not_single {c : Num} {factors : List (Expr × Expr)}
    (form : ProductForm c factors) (hl : factors.length = 1) : c.value ≠ 1 := by
  rcases form.entries with h | ⟨-, h⟩
  · omega
  · exact fun h1 => absurd (Num.isOne_iff.mpr h1) (ne_true_of_eq_false h)

/-- A product with several entries is still one without its coefficient. -/
theorem ProductForm.unscaled {c : Num} {factors : List (Expr × Expr)} (form : ProductForm c factors)
    (hsingle : ∀ b e, factors ≠ [(b, e)]) : ProductForm .one factors := by
  have hl : 2 ≤ factors.length := by
    rcases form.entries with h | ⟨h, -⟩
    · exact h
    · obtain ⟨p, rfl⟩ := List.length_eq_one_iff.mp h
      exact absurd rfl (hsingle _ _)
  exact { form with
    coefficient_ne_zero := by decide
    entries := .inl hl }

theorem Canonical.ofNum (n : Num) : Canonical (.num n) := .num n n.reduced

theorem Canonical.zero : Canonical .zero := .ofNum _

theorem Canonical.one : Canonical .one := .ofNum _

/-- The construction returns nothing but canonical expressions. -/
def Makes (m : Build Expr) : Prop := m.Ensures Canonical fun _ => True

theorem Makes.of_ensures {m : Build Expr} {F : Fault → Prop} (h : m.Ensures Canonical F) :
    Makes m := h.mono (fun _ => id) fun _ _ => trivial

theorem Makes.number (m : Build Num) : Makes (do return .num (← m)) :=
  m.ensures_true.bind fun n _ => .pure (.ofNum n)

end Expr

/-! ## Powers -/

open ExactAlgebra.Expr

theorem Num.toPower_canonical (base exponent : Num) : Makes (base.toPower exponent) := by
  rw [toPower_eq]
  refine .ite (fun _ => .pure .one) fun h1 => .ite (fun _ => .ite (fun _ => .pure .zero) fun _ =>
    .throw trivial) fun h0 => .ite (fun _ => Makes.number _) fun hi => ?_
  refine Build.Ensures.fresh.bind fun age _ => .pure (.power age (.ofNum base) (.ofNum exponent) ?_)
  refine ⟨Bool.eq_false_iff.mpr h1, ?_, ?_, ?_, ?_⟩
  · refine Bool.eq_false_iff.mpr fun h => hi (isInteger_iff.mpr ?_)
    rw [isZero_iff.mp h, Rat.den_zero]
  · refine Bool.eq_false_iff.mpr fun h => hi (isInteger_iff.mpr ?_)
    rw [isOne_iff.mp h, Rat.den_one]
  · rintro b e ⟨⟩ ⟨⟩
    exact Bool.eq_false_iff.mpr hi
  · intro h
    exact absurd h h0

namespace Expr

/-- A power whose base is no number. -/
theorem PowerForm.of_not_num {base exponent : Expr} (hb : base.isNum = false)
    (h0 : exponent.isZero = false) (h1 : exponent.isOne = false) : PowerForm base exponent := by
  refine ⟨isOne_of_not_num hb, h0, h1, ?_, ?_⟩
  · rintro b e rfl
    exact nomatch hb
  · intro h
    rw [isZero_of_not_num hb] at h
    exact nomatch h

/-- A base that is no number is raised without a fault. -/
theorem ofPower_symbolic_canonical {base exponent : Expr} (hb : base.Canonical)
    (he : exponent.Canonical) (hn : base.isNum = false) :
    (ofPower base exponent).Ensures Canonical fun _ => False := by
  rw [ofPower_symbolic hn]
  refine .ite (fun _ => .pure .one) fun h0 => .ite (fun _ => .pure hb) fun h1 =>
    Build.Ensures.fresh.bind fun age _ => .pure (.power age hb he (.of_not_num hn ?_ ?_))
  · simpa using h0
  · simpa using h1

theorem ofPower_canonical {base exponent : Expr} (hb : base.Canonical) (he : exponent.Canonical) :
    Makes (ofPower base exponent) := by
  rcases base.num_or with ⟨b, rfl⟩ | hbn
  · rcases exponent.num_or with ⟨e, rfl⟩ | hen
    · exact Num.toPower_canonical b e
    · rw [ofPower_num b hen]
      refine .ite (fun _ => .pure .one) fun h1 => Build.Ensures.fresh.bind fun age _ =>
        .pure (.power age hb he ⟨?_, isZero_of_not_num hen, isOne_of_not_num hen, ?_, fun _ => hen⟩)
      · rwa [Bool.not_eq_true] at h1
      · rintro _ e - rfl
        exact nomatch hen
  · exact .of_ensures (ofPower_symbolic_canonical hb he hbn)

end Expr

end ExactAlgebra
