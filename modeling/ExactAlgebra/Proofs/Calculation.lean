import ExactAlgebra.Proofs.Meaning
import ExactAlgebra.Proofs.Outcome

/-!
# Working out numbers

Where all operands are numbers, the constructions work out a number or fail with an arithmetic
fault, and they fail exactly if the result is undefined.  The one exception are powers of numbers
other than zero and one to exponents that are no integers, which stay symbolic.

* `Build.Calculates m t`: `m` returns a number of value `t`, or fails if `t` is undefined.
* `toPower_calculates`, `ofProduct_calculates`, `ofSum_calculates`: the operations on numbers.
-/

namespace ExactAlgebra

open ExactAlgebra.Expr Partial

/-- A number was divided by zero, or zero was raised to an exponent that is not positive. -/
def Fault.IsArithmetic (e : Fault) : Prop :=
  (∃ q, e = .divisionByZero q) ∨ ∃ p q, e = .undefinedPower p q

def Fault.IsUndefinedPower (e : Fault) : Prop := ∃ q ≤ 0, e = .undefinedPower 0 q

theorem Fault.IsUndefinedPower.isArithmetic {e : Fault} (h : e.IsUndefinedPower) :
    e.IsArithmetic := by
  obtain ⟨q, -, rfl⟩ := h
  exact .inr ⟨0, q, rfl⟩

theorem Num.divide_inverse (a b : Num) : (a.divide b).Ensures
    (fun c => some a.value * inverse (some b.value) = some c.value)
    fun e => some a.value * inverse (some b.value) = none ∧ e = .divisionByZero a.value := by
  rw [divide_eq]
  refine .ite (fun h0 => .throw ⟨?_, rfl⟩) fun h0 => ?_
  · rw [isZero_iff.mp h0]
    rfl
  · rw [inverse_some (mt isZero_iff.mpr h0), some_mul_some, ← div_eq_mul_inv]
    exact (new_ensures _).imp fun _ h => by rw [h, Ratio.toRat_ofRat]

namespace Build

/-- The construction returns a number with the value `t`, or it fails with an `F`, and this only if
`t` is undefined. -/
def Calculates (m : Build Expr) (t : Option ℚ) (F : Fault → Prop) : Prop :=
  m.Ensures (fun r => ∃ n, r = .num n ∧ t = some n.value) fun e => t = none ∧ F e

variable {m : Build Expr} {t : Option ℚ} {F : Fault → Prop}

theorem Calculates.number {m : Build Num} {q : ℚ}
    (h : m.Ensures (fun n => n.value = q) fun _ => False) :
    Calculates (do return .num (← m)) (some q) F :=
  (h.mono (fun _ => id) fun _ => False.elim).bind fun n h => .pure ⟨n, rfl, by rw [h]⟩

theorem Calculates.weaken {F' : Fault → Prop} (h : Calculates m t F) (hF : ∀ e, F e → F' e) :
    Calculates m t F' := h.mono (fun _ => id) fun _ he => ⟨he.1, hF _ he.2⟩

/-- A construction that calculates what is defined returns it. -/
theorem Calculates.returns {q : ℚ} (h : Calculates m t F) (ht : t = some q) (s : Supply) :
    ∃ n, (m s).1 = .ok (.num n) ∧ n.value = q := by
  have hs := h s
  subst ht
  split at hs
  next r hr =>
    obtain ⟨n, rfl, hn⟩ := hs
    exact ⟨n, hr, (Option.some.inj hn).symm⟩
  next => exact nomatch hs.1

end Build

open Build

/-! ## Powers -/

theorem Num.toPower_calculates {b e : Num}
    (h : b.value = 0 ∨ b.value = 1 ∨ e.isInteger = true) :
    Calculates (b.toPower e) (power? b.value e.value) Fault.IsUndefinedPower := by
  rw [toPower_eq]
  refine .ite (fun h1 => .pure ⟨.one, rfl, ?_⟩) fun h1 => .ite (fun h0 => ?_) fun h0 =>
    .ite (fun hi => ?_) fun hi => ?_
  · rw [isOne_iff.mp h1, one_power?]
    rfl
  · rw [isZero_iff.mp h0, zero_power?]
    refine .ite (fun hp => .pure ⟨.zero, rfl, ?_⟩) fun hp =>
      .throw ⟨?_, e.value, not_lt.mp hp, rfl⟩
    · rw [if_pos hp]
      rfl
    · rw [if_neg hp]
  · have he : e.value = e.value.num := ((Rat.den_eq_one_iff _).mp (isInteger_iff.mp hi)).symm
    have hv : power? b.value e.value = some (b.value ^ e.value.num) := by
      rw [he, power?_integer (mt isZero_iff.mpr h0), Rat.num_intCast]
    rw [hv]
    exact Calculates.number (integerPower_ensures b e)
  · rcases h with h | h | h
    · exact absurd (isZero_iff.mpr h) h0
    · exact absurd (isOne_iff.mpr h) h1
    · exact absurd h hi

/-! ## Products -/

namespace ProductDraft

/-- The draft holds nothing but a coefficient of value `t`. -/
def Holds (d : ProductDraft) (t : Option ℚ) : Prop :=
  d.exponents.entries = [] ∧ t = some d.coefficient.value

theorem scale_calculates {d : ProductDraft} {t : Option ℚ} (h : d.Holds t) (n : Num) (sign : Sign) :
    Ensures (d.scale n sign) (fun d' => d'.Holds (t * sign.raise (some n.value)))
      fun e => t * sign.raise (some n.value) = none ∧ e.IsArithmetic := by
  obtain ⟨hd, rfl⟩ := h
  cases sign with
  | plus => exact (Num.multiply_ensures _ _).bind fun c hc => .pure ⟨hd, by rw [hc]; rfl⟩
  | minus =>
    refine ((Num.divide_inverse _ _).mono (fun _ => id) fun e he => ?_).bind fun c hc =>
      .pure ⟨hd, hc⟩
    exact ⟨he.1, .inl ⟨_, he.2⟩⟩

theorem absorbAll_calculates {sum : SignedTerms → Build Expr} (sign : Sign) (l : List Num)
    {d : ProductDraft} {t : Option ℚ} (h : d.Holds t) :
    Ensures ((l.map Expr.num).foldlM (fun d e => d.absorb sum e sign) d)
      (fun d' => d'.Holds (t * sign.raise (l.map fun n => some n.value).prod))
      fun e => t * sign.raise (l.map fun n => some n.value).prod = none ∧ e.IsArithmetic := by
  induction l generalizing d t with
  | nil =>
    rw [List.map_nil, List.map_nil, List.prod_nil, Sign.raise_one, mul_one]
    exact .pure h
  | cons n l ih =>
    rw [List.map_cons, List.foldlM_cons, List.map_cons, List.prod_cons, Sign.raise_mul, ← mul_assoc]
    refine ((scale_calculates h n sign).mono (fun _ => id) fun e he => ?_).bind fun d' hd => ih hd
    rw [he.1]
    exact ⟨none_mul _, he.2⟩

end ProductDraft

namespace Expr

/-- Products and quotients of numbers are worked out. -/
theorem ofProduct_calculates (factors divisors : List Num) :
    Calculates (ofProduct (factors.map .num) (divisors.map .num))
      ((factors.map fun n => some n.value).prod * inverse (divisors.map fun n => some n.value).prod)
      Fault.IsArithmetic := by
  have hempty : ProductDraft.empty.Holds 1 := ⟨rfl, rfl⟩
  have hfactors := @ProductDraft.absorbAll_calculates
    (sumAt (depthOf (factors.map num ++ divisors.map num))) .plus factors _ _ hempty
  rw [one_mul] at hfactors
  refine (((hfactors.mono (fun _ => id) fun e he => ?_).bind fun d hd =>
    ProductDraft.absorbAll_calculates .minus divisors hd)).bind fun d hd => ?_
  · rw [show (factors.map fun n => some n.value).prod = none from he.1]
    exact ⟨none_mul _, he.2⟩
  · obtain ⟨hentries, ht⟩ := hd
    have hflatten : d.flatten (sumAt (depthOf (factors.map num ++ divisors.map num))) d.rounds =
        pure d := by
      have hnested : d.nested = [] := by rw [ProductDraft.nested, hentries]; rfl
      have hrounds : d.rounds = 1 := by rw [ProductDraft.rounds, Ledger.keys, hentries]; rfl
      rw [hrounds, ProductDraft.flatten, hnested]
    rw [ProductDraft.finish, hflatten, pure_bind, ProductDraft.collapse, hentries]
    refine .ite (fun h0 => .pure ⟨.zero, rfl, ?_⟩) fun _ => .pure ⟨_, rfl, ht⟩
    rw [show (List.map (fun n : Num => some n.value) factors).prod *
      inverse (List.map (fun n : Num => some n.value) divisors).prod = some d.coefficient.value
      from ht, Num.isZero_iff.mp h0]
    rfl

/-- Products of numbers never fail. -/
theorem ofProduct_calculates_factors (factors : List Num) {F : Fault → Prop} :
    Calculates (ofProduct (factors.map .num) []) (factors.map fun n => some n.value).prod F := by
  have hp := ofProduct_calculates factors []
  rw [List.map_nil, List.map_nil, List.prod_nil, inverse_one, mul_one] at hp
  have hsome : (factors.map fun n => some n.value).prod.isSome = true := isSome_prod.mpr (by simp)
  refine hp.mono (fun _ => id) fun _ h => ?_
  rw [h.1] at hsome
  cases hsome

end Expr

/-! ## Sums -/

namespace SumDraft

/-- The draft holds nothing but a constant of value `q`. -/
def Holds (d : SumDraft) (q : ℚ) : Prop := d.coefficients.entries = [] ∧ d.constant.value = q

theorem absorbAll_calculates (l : List (Num × Sign)) {d : SumDraft} {q : ℚ} (h : d.Holds q)
    {F : Fault → Prop} :
    Ensures (d.absorbAll (l.map fun p => (.num p.1, p.2)))
      (fun d' => d'.Holds (q + (l.map fun p => p.2.toNum.value * p.1.value).sum)) F := by
  induction l generalizing d q with
  | nil => rw [List.map_nil, List.map_nil, List.sum_nil, add_zero]; exact .pure h
  | cons p l ih =>
    rw [absorbAll, List.map_cons, List.foldlM_cons, List.map_cons, List.sum_cons, ← add_assoc]
    refine Ensures.bind ((Num.multiply_ensures _ _).bind fun m hm => (Num.add_ensures _ _).bind
      fun c hc => .pure ⟨h.1, ?_⟩) fun d' hd => ih hd
    change c.value = q + p.2.toNum.value * p.1.value
    rw [hc, hm, h.2, mul_comm]

end SumDraft

namespace Expr

variable {F : Fault → Prop}

/-- Sums of numbers are worked out. -/
theorem ofSum_calculates (terms : List (Num × Sign)) :
    Calculates (ofSum (terms.map fun p => (.num p.1, p.2)))
      (some (terms.map fun p => p.2.toNum.value * p.1.value).sum) F := by
  have hempty : SumDraft.empty.Holds 0 := ⟨rfl, rfl⟩
  refine Ensures.bind (SumDraft.absorbAll_calculates terms hempty) fun d hd => ?_
  obtain ⟨hentries, hq⟩ := hd
  have hflatten : d.flatten d.rounds = pure d := by
    have hnested : d.nested = [] := by rw [SumDraft.nested, hentries]; rfl
    have hrounds : d.rounds = 1 := by rw [SumDraft.rounds, Ledger.keys, hentries]; rfl
    rw [hrounds, SumDraft.flatten, hnested]
  rw [SumDraft.finish, hflatten, pure_bind, SumDraft.collapse, hentries]
  exact .pure ⟨_, rfl, by rw [hq, zero_add]⟩

/-- Numbers are added. -/
theorem ofSum_calculates_plus (ns : List Num) :
    Calculates (ofSum (ns.map fun n => (.num n, .plus))) (some (ns.map Num.value).sum) F := by
  have hs := ofSum_calculates (F := F) (ns.map fun n => (n, .plus))
  rw [List.map_map, List.map_map] at hs
  have hvalue : ((fun p : Num × Sign => p.2.toNum.value * p.1.value) ∘ fun n => (n, .plus)) =
      Num.value := by
    funext n
    exact one_mul n.value
  rwa [hvalue] at hs

end Expr

end ExactAlgebra
