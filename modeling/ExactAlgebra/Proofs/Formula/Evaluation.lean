import ExactAlgebra.Proofs.Calculation
import ExactAlgebra.Proofs.Formula
import ExactAlgebra.Proofs.Grammar.Actions

/-!
# Formulas are worked out

The tree of a text without letters denotes a formula.  Each pass of the actions replaces parts of
the tree by numbers, and what is left still denotes the same formula, up to the last pass, which
leaves the value of the formula.  A pass fails only if the formula has no value.

* `Factor.Denotes`, `Term.Denotes`, `Sum.Denotes`, `Primary.Denotes`: what a tree denotes, given
  what its leaves denote.
* `Tree.build_denotes`, `Tree.groups_denotes`, `Sum.combine_equals`: the passes.
* `Tree.actUnder_equals`: the tree of a formula is worked out to the value of the formula.
-/

namespace ExactAlgebra

open Build Partial Passes

/-- The atom is a numeral that denotes the formula. -/
def Atom.Denotes (a : Atom) (φ : Formula) : Prop := ∃ n, a = .number n ∧ φ = .number n.value

/-- The expression is a number, the value of the formula. -/
def Expr.Equals (e : Expr) (φ : Formula) : Prop := ∃ n, e = .num n ∧ φ.value = some n.value

namespace Grammar

/-! ## What trees denote -/

section Denotes

variable {α : Type} (R : α → Formula → Prop)

inductive Factor.Denotes : Factor α → Formula → Prop where
  | operand {a : α} {φ : Formula} (h : R a φ) : Denotes (.operand a) φ
  | power {a : α} {φ ψ : Formula} {f : Factor α} (h : R a φ) (negated : Bool) (hf : Denotes f ψ) :
      Denotes (.power a negated f) (.power φ (ψ.signed negated))

inductive Term.Denotes : Term α → Formula → Prop where
  | factor {a : α} {φ : Formula} (h : R a φ) : Denotes (.factor a) φ
  | multiply {t : Term α} {φ ψ : Formula} {a : α} (ht : Denotes t φ) (negated : Bool) (h : R a ψ) :
      Denotes (.multiply t negated a) (.product φ (ψ.signed negated))
  | divide {t : Term α} {φ ψ : Formula} {a : α} (ht : Denotes t φ) (negated : Bool) (h : R a ψ) :
      Denotes (.divide t negated a) (.quotient φ (ψ.signed negated))

inductive Sum.Denotes : Sum α → Formula → Prop where
  | term {t : Term α} {φ : Formula} (negated : Bool) (ht : Term.Denotes R t φ) :
      Denotes (.term negated t) (φ.signed negated)
  | plus {s : Sum α} {t : Term α} {φ ψ : Formula} (hs : Denotes s φ) (ht : Term.Denotes R t ψ) :
      Denotes (.add s .plus t) (.sum φ ψ)
  | minus {s : Sum α} {t : Term α} {φ ψ : Formula} (hs : Denotes s φ) (ht : Term.Denotes R t ψ) :
      Denotes (.add s .minus t) (.difference φ ψ)

inductive Primary.Denotes : Primary α → Formula → Prop where
  | leaf {a : α} {φ : Formula} (h : R a φ) : Denotes (.leaf a) φ
  | group {s : Sum (Factor (Primary α))} {φ : Formula}
      (h : Sum.Denotes (Factor.Denotes Denotes) s φ) : Denotes (.group s) (.brackets φ)

end Denotes

/-! ## Negations -/

theorem signedOperand_equals (negated : Bool) {e : Expr} {φ : Formula} (h : e.Equals φ)
    {F : Fault → Prop} : Ensures (signedOperand negated e) (·.Equals (φ.signed negated)) F := by
  obtain ⟨n, rfl, hn⟩ := h
  cases negated with
  | false => exact .pure ⟨n, rfl, hn⟩
  | true =>
    exact (Num.negate_ensures n).bind fun m hm => .pure ⟨m, rfl, by
      rw [hm]; change φ.value.map _ = _; rw [hn]; rfl⟩

theorem value_signed_eq_none {φ : Formula} (negated : Bool) (h : φ.value = none) :
    (φ.signed negated).value = none := by
  cases negated with
  | false => exact h
  | true => change φ.value.map _ = none; rw [h]; rfl

theorem nesting_signed (φ : Formula) (negated : Bool) :
    (φ.signed negated).nesting = φ.nesting := by
  cases negated <;> rfl

theorem powersRational_signed {φ : Formula} {negated : Bool}
    (h : (φ.signed negated).PowersRational) : φ.PowersRational := by
  cases negated with
  | false => exact h
  | true => exact h

/-! ## Leaves -/

section Leaves

variable {F : Fault → Prop}

theorem build_atom {a : Atom} {φ : Formula} (h : a.Denotes φ) :
    Ensures a.build (·.Equals φ) F := by
  obtain ⟨n, rfl, rfl⟩ := h
  rw [Atom.build_number]
  exact (Num.new_ensures _).bind fun m hm => .pure ⟨m, rfl, by rw [hm, Ratio.toRat_ofRat]; rfl⟩

mutual

theorem Primary.build_denotes (p : Primary Atom) {φ : Formula} (h : p.Denotes Atom.Denotes φ) :
    Ensures p.build (·.Denotes Expr.Equals φ) F := by
  cases p with
  | leaf a =>
    cases h with
    | leaf h =>
      rw [Primary.build]
      exact (build_atom h).bind fun e he => .pure (.leaf he)
  | group s =>
    cases h with
    | group h =>
      rw [Primary.build]
      exact (Tree.build_denotes s h).bind fun s hs => .pure (.group hs)

theorem Factor.build_denotes (f : Factor (Primary Atom)) {φ : Formula}
    (h : f.Denotes (Primary.Denotes Atom.Denotes) φ) :
    Ensures f.build (·.Denotes (Primary.Denotes Expr.Equals) φ) F := by
  cases f with
  | operand p =>
    cases h with
    | operand h =>
      rw [Factor.build]
      exact (Primary.build_denotes p h).bind fun p hp => .pure (.operand hp)
  | power p negated f =>
    cases h with
    | power h negated hf =>
      rw [Factor.build]
      exact (Primary.build_denotes p h).bind fun p hp =>
        (Factor.build_denotes f hf).bind fun f hf => .pure (.power hp negated hf)

theorem Term.build_denotes (t : Term (Factor (Primary Atom))) {φ : Formula}
    (h : t.Denotes (Factor.Denotes (Primary.Denotes Atom.Denotes)) φ) :
    Ensures t.build (·.Denotes (Factor.Denotes (Primary.Denotes Expr.Equals)) φ) F := by
  cases t with
  | factor f =>
    cases h with
    | factor h =>
      rw [Term.build]
      exact (Factor.build_denotes f h).bind fun f hf => .pure (.factor hf)
  | multiply t negated f =>
    cases h with
    | multiply ht negated h =>
      rw [Term.build]
      exact (Term.build_denotes t ht).bind fun t ht =>
        (Factor.build_denotes f h).bind fun f hf => .pure (.multiply ht negated hf)
  | divide t negated f =>
    cases h with
    | divide ht negated h =>
      rw [Term.build]
      exact (Term.build_denotes t ht).bind fun t ht =>
        (Factor.build_denotes f h).bind fun f hf => .pure (.divide ht negated hf)

theorem Tree.build_denotes (s : Tree Atom) {φ : Formula}
    (h : s.Denotes (Factor.Denotes (Primary.Denotes Atom.Denotes)) φ) :
    Ensures (Tree.build s) (·.Denotes (Factor.Denotes (Primary.Denotes Expr.Equals)) φ) F := by
  cases s with
  | term negated t =>
    cases h with
    | term negated ht =>
      rw [Tree.build]
      exact (Term.build_denotes t ht).bind fun t ht => .pure (.term negated ht)
  | add s sign t =>
    rw [Tree.build]
    cases h with
    | plus hs ht =>
      exact (Tree.build_denotes s hs).bind fun s hs => (Term.build_denotes t ht).bind fun t ht =>
        .pure (.plus hs ht)
    | minus hs ht =>
      exact (Tree.build_denotes s hs).bind fun s hs => (Term.build_denotes t ht).bind fun t ht =>
        .pure (.minus hs ht)

end

end Leaves

/-! ## Formulas without a value -/

/-- The formula has no value, and the fault is one of arithmetic. -/
def Undefined (φ : Formula) (e : Fault) : Prop := φ.value = none ∧ e.IsArithmetic

/-- A formula has no value if some part of it has none. -/
theorem undefined_of_part {α : Type} {m : Build α} {P : α → Prop} {φ ψ : Formula}
    (h : Ensures m P (Undefined φ)) (hv : φ.value = none → ψ.value = none) :
    Ensures m P (Undefined ψ) := h.mono (fun _ => id) fun _ he => ⟨hv he.1, he.2⟩

section Parts

variable {φ ψ : Formula}

theorem value_sum_eq_none (h : φ.value = none ∨ ψ.value = none) :
    (Formula.sum φ ψ).value = none := by
  rw [Formula.value]
  rcases h with h | h
  · rw [h, none_add]
  · rw [h, add_none]

theorem value_difference_eq_none (h : φ.value = none ∨ ψ.value = none) :
    (Formula.difference φ ψ).value = none := by
  rw [Formula.value]
  rcases h with h | h
  · rw [h, none_add]
  · rw [h, Option.map_none, add_none]

theorem value_product_eq_none (h : φ.value = none ∨ ψ.value = none) :
    (Formula.product φ ψ).value = none := by
  rw [Formula.value]
  rcases h with h | h
  · rw [h, none_mul]
  · rw [h, mul_none]

theorem value_quotient_eq_none (h : φ.value = none ∨ ψ.value = none) :
    (Formula.quotient φ ψ).value = none := by
  rw [Formula.value]
  rcases h with h | h
  · rw [h, none_mul]
  · rw [h, inverse_none, mul_none]

theorem value_power_eq_none (h : φ.value = none ∨ ψ.value = none) :
    (Formula.power φ ψ).value = none := by
  rw [Formula.value]
  rcases h with h | h
  · rw [h, Option.bind_none]
  · rw [h]
    cases φ.value <;> rfl

end Parts

/-! ## Powers -/

section Check

variable {check : Nat → Build Unit}

theorem Factor.raise_equals (h0 : check 0 = return ()) {f : Factor Expr} {φ : Formula}
    (h : f.Denotes Expr.Equals φ) (hφ : φ.PowersRational) :
    Ensures (f.raise check) (·.Equals φ) (Undefined φ) := by
  induction h with
  | operand h => exact .pure h
  | @power b φ ψ f hb negated hf ih =>
    obtain ⟨n, rfl, hn⟩ := hb
    obtain ⟨-, hψ, hpower⟩ := hφ
    have hv : (Formula.power φ (ψ.signed negated)).value =
        (ψ.signed negated).value.bind (power? n.value) := by
      rw [Formula.value, hn, Option.bind_some]
    have hf : Ensures (f.raise check) (·.Equals ψ) (Undefined (.power φ (ψ.signed negated))) :=
      undefined_of_part (ih (powersRational_signed hψ)) fun h =>
        value_power_eq_none (.inr (value_signed_eq_none negated h))
    refine hf.bind fun e he => (signedOperand_equals negated he).bind ?_
    rintro _ ⟨m, rfl, hm⟩
    rw [hm, Option.bind_some] at hv
    have hcases : n.value = 0 ∨ n.value = 1 ∨ m.isInteger = true :=
      (hpower _ _ hn hm).imp id (Or.imp id Num.isInteger_iff.mpr)
    have hcalc := (Num.toPower_calculates hcases).weaken fun _ h => h.isArithmetic
    rw [← hv] at hcalc
    refine hcalc.bind ?_
    rintro _ ⟨r, rfl, hr⟩
    change Ensures (check 0 >>= fun _ => _) _ _
    rw [h0]
    exact .pure ⟨r, rfl, hr⟩

theorem Term.raise_denotes (h0 : check 0 = return ()) {t : Term (Factor Expr)} {φ : Formula}
    (h : t.Denotes (Factor.Denotes Expr.Equals) φ) (hφ : φ.PowersRational) :
    Ensures (t.raise check) (·.Denotes Expr.Equals φ) (Undefined φ) := by
  induction h with
  | factor h => exact (Factor.raise_equals h0 h hφ).bind fun e he => .pure (.factor he)
  | @multiply t φ ψ f ht negated hf ih =>
    have hf : Ensures (f.raise check) (·.Equals ψ) (Undefined (.product φ (ψ.signed negated))) :=
      undefined_of_part (Factor.raise_equals h0 hf (powersRational_signed hφ.2)) fun h =>
        value_product_eq_none (.inr (value_signed_eq_none negated h))
    have ht : Ensures (t.raise check) (·.Denotes Expr.Equals φ)
        (Undefined (.product φ (ψ.signed negated))) :=
      undefined_of_part (ih hφ.1) fun h => value_product_eq_none (.inl h)
    exact hf.bind fun e he => ht.bind fun t ht => .pure (.multiply ht negated he)
  | @divide t φ ψ f ht negated hf ih =>
    have hf : Ensures (f.raise check) (·.Equals ψ) (Undefined (.quotient φ (ψ.signed negated))) :=
      undefined_of_part (Factor.raise_equals h0 hf (powersRational_signed hφ.2)) fun h =>
        value_quotient_eq_none (.inr (value_signed_eq_none negated h))
    have ht : Ensures (t.raise check) (·.Denotes Expr.Equals φ)
        (Undefined (.quotient φ (ψ.signed negated))) :=
      undefined_of_part (ih hφ.1) fun h => value_quotient_eq_none (.inl h)
    exact hf.bind fun e he => ht.bind fun t ht => .pure (.divide ht negated he)

theorem Sum.raise_denotes (h0 : check 0 = return ()) {s : Sum (Factor Expr)} {φ : Formula}
    (h : s.Denotes (Factor.Denotes Expr.Equals) φ) (hφ : φ.PowersRational) :
    Ensures (s.raise check) (·.Denotes Expr.Equals φ) (Undefined φ) := by
  induction h with
  | term negated ht =>
    have ht := Term.raise_denotes h0 ht (powersRational_signed hφ)
    exact (undefined_of_part ht (value_signed_eq_none negated)).bind fun t ht =>
      .pure (.term negated ht)
  | @plus s t φ ψ hs ht ih =>
    have ht : Ensures (t.raise check) (·.Denotes Expr.Equals ψ) (Undefined (.sum φ ψ)) :=
      undefined_of_part (Term.raise_denotes h0 ht hφ.2) fun h => value_sum_eq_none (.inr h)
    have hs : Ensures (s.raise check) (·.Denotes Expr.Equals φ) (Undefined (.sum φ ψ)) :=
      undefined_of_part (ih hφ.1) fun h => value_sum_eq_none (.inl h)
    exact ht.bind fun t ht => hs.bind fun s hs => .pure (.plus hs ht)
  | @minus s t φ ψ hs ht ih =>
    have ht : Ensures (t.raise check) (·.Denotes Expr.Equals ψ) (Undefined (.difference φ ψ)) :=
      undefined_of_part (Term.raise_denotes h0 ht hφ.2) fun h => value_difference_eq_none (.inr h)
    have hs : Ensures (s.raise check) (·.Denotes Expr.Equals φ) (Undefined (.difference φ ψ)) :=
      undefined_of_part (ih hφ.1) fun h => value_difference_eq_none (.inl h)
    exact ht.bind fun t ht => hs.bind fun s hs => .pure (.minus hs ht)

end Check

/-! ## Products -/

/-- The factors of a term divided by its divisors have the value of the term. -/
theorem Term.operands_value {t : Term Expr} {φ : Formula} (h : t.Denotes Expr.Equals φ)
    {F : Fault → Prop} : Ensures t.operands (fun p => ∃ factors divisors : List Num,
      p = (factors.map .num, divisors.map .num) ∧ φ.value =
        (factors.map fun n => some n.value).prod *
          inverse (divisors.map fun n => some n.value).prod) F := by
  induction h with
  | factor h =>
    obtain ⟨n, rfl, hn⟩ := h
    refine .pure ⟨[n], [], rfl, ?_⟩
    rw [List.map_singleton, List.prod_singleton, List.map_nil, List.prod_nil, inverse_one, mul_one,
      hn]
  | multiply ht negated h ih =>
    refine ih.bind ?_
    rintro _ ⟨factors, divisors, rfl, hv⟩
    refine (signedOperand_equals negated h).bind ?_
    rintro _ ⟨n, rfl, hn⟩
    refine .pure ⟨factors ++ [n], divisors, by rw [List.map_append, List.map_singleton], ?_⟩
    rw [Formula.value, hv, hn, List.map_append, List.prod_append, List.map_singleton,
      List.prod_singleton, mul_right_comm]
  | divide ht negated h ih =>
    refine ih.bind ?_
    rintro _ ⟨factors, divisors, rfl, hv⟩
    refine (signedOperand_equals negated h).bind ?_
    rintro _ ⟨n, rfl, hn⟩
    refine .pure ⟨factors, divisors ++ [n], by rw [List.map_append, List.map_singleton], ?_⟩
    rw [Formula.value, hv, hn, List.map_append, List.prod_append, List.map_singleton,
      List.prod_singleton, inverse_mul, mul_assoc]

theorem Term.product_equals {t : Term Expr} {φ : Formula} (h : t.Denotes Expr.Equals φ) :
    Ensures t.product (·.Equals φ) (Undefined φ) := by
  refine (Term.operands_value h).bind ?_
  rintro _ ⟨factors, divisors, rfl, hv⟩
  change Ensures (productOf _ _) _ _
  unfold productOf
  split
  next e hfactors hdivisors =>
    obtain ⟨n, rfl, rfl⟩ := List.map_eq_singleton_iff.mp hfactors
    obtain rfl := List.map_eq_nil_iff.mp hdivisors
    refine .pure ⟨n, rfl, ?_⟩
    rw [hv, List.map_singleton, List.prod_singleton, List.map_nil, List.prod_nil, inverse_one,
      mul_one]
  next =>
    have hp := Expr.ofProduct_calculates factors divisors
    rw [← hv] at hp
    exact hp

/-! ## Sums -/

/-- The signed terms of a sum have the value of the sum. -/
theorem Sum.addends_value {s : Sum Expr} {φ : Formula} (h : s.Denotes Expr.Equals φ) :
    Ensures s.addends (fun l => ∃ terms : List (Num × Sign),
      l = terms.map (fun p => (.num p.1, p.2)) ∧
        φ.value = some (terms.map fun p => p.2.toNum.value * p.1.value).sum) (Undefined φ) := by
  induction h with
  | @term t φ negated ht =>
    refine (undefined_of_part (Term.product_equals ht) (value_signed_eq_none negated)).bind ?_
    rintro _ ⟨n, rfl, hn⟩
    refine .pure ⟨[(n, signIf negated)], rfl, ?_⟩
    rw [List.map_singleton, List.sum_singleton]
    cases negated with
    | false =>
      change φ.value = some (1 * n.value)
      rw [hn, one_mul]
    | true =>
      change φ.value.map _ = some (-1 * n.value)
      rw [hn, neg_one_mul]
      rfl
  | @plus s t φ ψ hs ht ih =>
    have ht : Ensures t.product (·.Equals ψ) (Undefined (.sum φ ψ)) :=
      undefined_of_part (Term.product_equals ht) fun h => value_sum_eq_none (.inr h)
    refine (undefined_of_part ih fun h => value_sum_eq_none (.inl h)).bind ?_
    rintro _ ⟨terms, rfl, hv⟩
    refine ht.bind ?_
    rintro _ ⟨n, rfl, hn⟩
    refine .pure ⟨terms ++ [(n, .plus)], by rw [List.map_append]; rfl, ?_⟩
    rw [Formula.value, hv, hn, List.map_append, List.sum_append, List.map_singleton,
      List.sum_singleton, some_add_some, show Sign.plus.toNum.value = 1 from rfl, one_mul]
  | @minus s t φ ψ hs ht ih =>
    have ht : Ensures t.product (·.Equals ψ) (Undefined (.difference φ ψ)) :=
      undefined_of_part (Term.product_equals ht) fun h => value_difference_eq_none (.inr h)
    refine (undefined_of_part ih fun h => value_difference_eq_none (.inl h)).bind ?_
    rintro _ ⟨terms, rfl, hv⟩
    refine ht.bind ?_
    rintro _ ⟨n, rfl, hn⟩
    refine .pure ⟨terms ++ [(n, .minus)], by rw [List.map_append]; rfl, ?_⟩
    rw [Formula.value, hv, hn, Option.map_some, List.map_append, List.sum_append,
      List.map_singleton, List.sum_singleton, some_add_some,
      show Sign.minus.toNum.value = -1 from rfl, neg_one_mul]

/-- The total of a sum of numbers. -/
theorem Sum.total_equals {s : Sum Expr} {φ : Formula} (h : s.Denotes Expr.Equals φ) :
    Ensures s.total (·.Equals φ) (Undefined φ) := by
  refine (Sum.addends_value h).bind ?_
  rintro _ ⟨terms, rfl, hv⟩
  unfold sumOf
  split
  next e hterms =>
    obtain ⟨⟨n, sign⟩, rfl, hp⟩ := List.map_eq_singleton_iff.mp hterms
    obtain ⟨rfl, rfl⟩ := Prod.mk.inj hp
    refine .pure ⟨n, rfl, ?_⟩
    rw [hv, List.map_singleton, List.sum_singleton]
    exact congrArg some (one_mul _)
  next =>
    have hs := Expr.ofSum_calculates (F := Fault.IsArithmetic) terms
    rw [← hv] at hs
    exact hs

/-! ## Groups -/

section Groups

variable {check : Nat → Build Unit} {levels : Nat}

theorem Sum.combine_equals (h0 : check 0 = return ()) {s : Sum (Factor Expr)} {φ : Formula}
    (h : s.Denotes (Factor.Denotes Expr.Equals) φ) (hφ : φ.PowersRational) :
    Ensures (s.combine check) (·.Equals φ) (Undefined φ) := by
  refine (Sum.raise_denotes h0 h hφ).bind fun s hs => (Sum.total_equals hs).bind ?_
  rintro _ ⟨n, rfl, hn⟩
  change Ensures (check 0 >>= fun _ => _) _ _
  rw [h0]
  exact .pure ⟨n, rfl, hn⟩

mutual

theorem Primary.resolve_equals (hcheck : ∀ n ≤ levels, check n = return ())
    (p : Primary Expr) (depth : Nat) {φ : Formula}
    (h : p.Denotes Expr.Equals φ) (hφ : φ.PowersRational) (hd : depth + φ.nesting ≤ levels) :
    Ensures (p.resolve check depth) (·.Equals φ) (Undefined φ) := by
  cases p with
  | leaf e =>
    cases h with
    | leaf h =>
      rw [Primary.resolve]
      exact .pure h
  | group s =>
    cases h with
    | @group _ ψ h =>
      have hd : depth + 1 + ψ.nesting ≤ levels := by rw [Formula.nesting] at hd; omega
      rw [Primary.resolve, hcheck _ (Nat.le_of_add_right_le hd), pure_bind]
      have hψ : ψ.PowersRational := hφ
      refine (Tree.groups_denotes hcheck s (depth + 1) h hψ hd).bind fun s hs => ?_
      have hcombine := Sum.combine_equals (hcheck 0 (Nat.zero_le _)) hs hψ
      exact hcombine

theorem Factor.groups_denotes (hcheck : ∀ n ≤ levels, check n = return ())
    (f : Factor (Primary Expr)) (depth : Nat) {φ : Formula}
    (h : f.Denotes (Primary.Denotes Expr.Equals) φ) (hφ : φ.PowersRational)
    (hd : depth + φ.nesting ≤ levels) :
    Ensures (f.groups check depth) (·.Denotes Expr.Equals φ) (Undefined φ) := by
  cases f with
  | operand p =>
    cases h with
    | operand h =>
      rw [Factor.groups]
      exact (Primary.resolve_equals hcheck p depth h hφ hd).bind fun e he => .pure (.operand he)
  | power p negated f =>
    cases h with
    | @power _ φ ψ _ h negated hf =>
      rw [Formula.nesting, nesting_signed] at hd
      have hp : Ensures (p.resolve check depth) (·.Equals φ)
          (Undefined (.power φ (ψ.signed negated))) :=
        undefined_of_part (Primary.resolve_equals hcheck p depth h hφ.1 (by omega)) fun h =>
          value_power_eq_none (.inl h)
      have hf : Ensures (f.groups check depth) (·.Denotes Expr.Equals ψ)
          (Undefined (.power φ (ψ.signed negated))) :=
        undefined_of_part
          (Factor.groups_denotes hcheck f depth hf (powersRational_signed hφ.2.1) (by omega))
          fun h => value_power_eq_none (.inr (value_signed_eq_none negated h))
      rw [Factor.groups]
      exact hp.bind fun e he => hf.bind fun f hf => .pure (.power he negated hf)

theorem Term.groups_denotes (hcheck : ∀ n ≤ levels, check n = return ())
    (t : Term (Factor (Primary Expr))) (depth : Nat) {φ : Formula}
    (h : t.Denotes (Factor.Denotes (Primary.Denotes Expr.Equals)) φ) (hφ : φ.PowersRational)
    (hd : depth + φ.nesting ≤ levels) :
    Ensures (t.groups check depth) (·.Denotes (Factor.Denotes Expr.Equals) φ) (Undefined φ) := by
  cases t with
  | factor f =>
    cases h with
    | factor h =>
      rw [Term.groups]
      exact (Factor.groups_denotes hcheck f depth h hφ hd).bind fun f hf => .pure (.factor hf)
  | multiply t negated f =>
    cases h with
    | @multiply _ φ ψ _ ht negated hf =>
      rw [Formula.nesting, nesting_signed] at hd
      have ht : Ensures (t.groups check depth) (·.Denotes (Factor.Denotes Expr.Equals) φ)
          (Undefined (.product φ (ψ.signed negated))) :=
        undefined_of_part (Term.groups_denotes hcheck t depth ht hφ.1 (by omega)) fun h =>
          value_product_eq_none (.inl h)
      have hf : Ensures (f.groups check depth) (·.Denotes Expr.Equals ψ)
          (Undefined (.product φ (ψ.signed negated))) :=
        undefined_of_part
          (Factor.groups_denotes hcheck f depth hf (powersRational_signed hφ.2) (by omega))
          fun h => value_product_eq_none (.inr (value_signed_eq_none negated h))
      rw [Term.groups]
      exact ht.bind fun t ht => hf.bind fun f hf => .pure (.multiply ht negated hf)
  | divide t negated f =>
    cases h with
    | @divide _ φ ψ _ ht negated hf =>
      rw [Formula.nesting, nesting_signed] at hd
      have ht : Ensures (t.groups check depth) (·.Denotes (Factor.Denotes Expr.Equals) φ)
          (Undefined (.quotient φ (ψ.signed negated))) :=
        undefined_of_part (Term.groups_denotes hcheck t depth ht hφ.1 (by omega)) fun h =>
          value_quotient_eq_none (.inl h)
      have hf : Ensures (f.groups check depth) (·.Denotes Expr.Equals ψ)
          (Undefined (.quotient φ (ψ.signed negated))) :=
        undefined_of_part
          (Factor.groups_denotes hcheck f depth hf (powersRational_signed hφ.2) (by omega))
          fun h => value_quotient_eq_none (.inr (value_signed_eq_none negated h))
      rw [Term.groups]
      exact ht.bind fun t ht => hf.bind fun f hf => .pure (.divide ht negated hf)

theorem Tree.groups_denotes (hcheck : ∀ n ≤ levels, check n = return ())
    (s : Tree Expr) (depth : Nat) {φ : Formula}
    (h : s.Denotes (Factor.Denotes (Primary.Denotes Expr.Equals)) φ) (hφ : φ.PowersRational)
    (hd : depth + φ.nesting ≤ levels) :
    Ensures (Tree.groups check depth s) (·.Denotes (Factor.Denotes Expr.Equals) φ)
      (Undefined φ) := by
  cases s with
  | term negated t =>
    cases h with
    | term negated ht =>
      rw [nesting_signed] at hd
      have ht := Term.groups_denotes hcheck t depth ht (powersRational_signed hφ) hd
      rw [Tree.groups]
      exact (undefined_of_part ht (value_signed_eq_none negated)).bind fun t ht =>
        .pure (.term negated ht)
  | add s sign t =>
    rw [Tree.groups]
    cases h with
    | @plus _ _ φ ψ hs ht =>
      rw [Formula.nesting] at hd
      have hs : Ensures (Tree.groups check depth s) (·.Denotes (Factor.Denotes Expr.Equals) φ)
          (Undefined (.sum φ ψ)) :=
        undefined_of_part (Tree.groups_denotes hcheck s depth hs hφ.1 (by omega)) fun h =>
          value_sum_eq_none (.inl h)
      have ht : Ensures (t.groups check depth) (·.Denotes (Factor.Denotes Expr.Equals) ψ)
          (Undefined (.sum φ ψ)) :=
        undefined_of_part (Term.groups_denotes hcheck t depth ht hφ.2 (by omega)) fun h =>
          value_sum_eq_none (.inr h)
      exact hs.bind fun s hs => ht.bind fun t ht => .pure (.plus hs ht)
    | @minus _ _ φ ψ hs ht =>
      rw [Formula.nesting] at hd
      have hs : Ensures (Tree.groups check depth s) (·.Denotes (Factor.Denotes Expr.Equals) φ)
          (Undefined (.difference φ ψ)) :=
        undefined_of_part (Tree.groups_denotes hcheck s depth hs hφ.1 (by omega)) fun h =>
          value_difference_eq_none (.inl h)
      have ht : Ensures (t.groups check depth) (·.Denotes (Factor.Denotes Expr.Equals) ψ)
          (Undefined (.difference φ ψ)) :=
        undefined_of_part (Term.groups_denotes hcheck t depth ht hφ.2 (by omega)) fun h =>
          value_difference_eq_none (.inr h)
      exact hs.bind fun s hs => ht.bind fun t ht => .pure (.minus hs ht)

end

/-- **The tree of a formula is worked out** to the value of the formula, if nothing is refused that
nests as deeply as the formula does. -/
theorem Tree.actUnder_equals (hcheck : ∀ n ≤ levels, check n = return ()) {s : Tree Atom}
    {φ : Formula} (h : s.Denotes (Factor.Denotes (Primary.Denotes Atom.Denotes)) φ)
    (hφ : φ.PowersRational) (hn : φ.nesting ≤ levels) :
    Ensures (Tree.actUnder check s) (·.Equals φ) (Undefined φ) := by
  refine (Tree.build_denotes s h).bind fun s hs => ?_
  rw [hcheck 0 (Nat.zero_le _), pure_bind]
  exact (Tree.groups_denotes hcheck s 0 hs hφ (by omega)).bind fun s hs =>
    Sum.combine_equals (hcheck 0 (Nat.zero_le _)) hs hφ

end Groups

end Grammar

end ExactAlgebra
