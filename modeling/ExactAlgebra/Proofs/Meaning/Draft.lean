import ExactAlgebra.Proofs.Meaning

/-!
# Constructions keep the value

The value of a draft is that of the node it would make.  Entering multiplies or adds, a merge that
is timely changes nothing, and the finished node has the value of the draft.

* `ofPower_gives`: a power has the value of the base raised to the value of the exponent.
* `ProductDraft.absorb_gives`, `SumDraft.absorb_gives`: what entering a factor or a term does.
* `ProductDraft.flatten_gives`, `SumDraft.flatten_gives`: timely merges keep the value.
* `ofProduct_gives`, `ofSum_gives`: products and sums have the values that their parts make.
-/

namespace ExactAlgebra

open Build Partial ExactAlgebra.Expr

variable {A : Admission} {ρ : String → Option ℚ}

/-! ## Numbers and powers -/

theorem Num.new_gives {r : Ratio} {q : ℚ} (h : r.toRat = q) :
    Gives (Num.new r) (fun n => some n.value) (some q) :=
  .fresh_bind fun _ => .pure fun _ => congrArg some h

theorem Num.add_gives (a b : Num) :
    Gives (a.add b) (fun n => some n.value) (some (a.value + b.value)) :=
  Num.new_gives (Ratio.toRat_add _ _)

theorem Num.multiply_gives (a b : Num) :
    Gives (a.multiply b) (fun n => some n.value) (some (a.value * b.value)) :=
  Num.new_gives (Ratio.toRat_multiply _ _)

theorem Num.negate_gives (a : Num) :
    Gives a.negate (fun n => some n.value) (some (-a.value)) :=
  Num.new_gives (Ratio.toRat_negate _)

theorem Num.integerPower_gives (b e : Num) :
    Gives (b.integerPower e) (fun n => some n.value) (some (b.value ^ e.value.num)) :=
  have h := Num.new_gives (Ratio.toRat_ofRat (b.value ^ e.value.num))
  .ite (fun _ => .fresh_bind fun _ => .fresh_bind fun _ => h) fun _ => h

theorem Num.number_gives {m : Build Num} {q : ℚ} (h : Gives m (fun n => some n.value) (some q)) :
    Gives (do return Expr.num (← m)) (denote A ρ) (some q) :=
  h.bind (fun _ => rfl) (fun n => .pure fun _ => rfl) fun n _ h => by rw [denote_num, h]

theorem Num.divide_gives (a b : Num) : Gives (a.divide b) (fun n => some n.value)
    (some a.value * inverse (some b.value)) := by
  rw [Num.divide_eq]
  split
  next h0 =>
    rw [Num.isZero_iff.mp h0, inverse_zero, mul_none]
    exact .throw rfl
  next h0 =>
    rw [inverse_some (mt Num.isZero_iff.mpr h0), some_mul_some, ← div_eq_mul_inv]
    exact Num.new_gives (Ratio.toRat_ofRat _)

theorem Num.toPower_gives (b e : Num) :
    Gives (b.toPower e) (denote A ρ) (A.raise (.num b) (some b.value) (some e.value)) := by
  rw [Num.toPower_eq]
  split
  next h1 =>
    refine .pure fun hs => ?_
    rw [Admission.raise_eq_power? hs, Num.isOne_iff.mp h1, one_power?]
    rfl
  next h1 =>
    split
    next h0 =>
      have h0 : b.value = 0 := Num.isZero_iff.mp h0
      split
      next hp =>
        refine .pure fun hs => ?_
        rw [Admission.raise_eq_power? hs, h0, zero_power?, if_pos hp]
        rfl
      next hp =>
        refine .throw (Option.not_isSome_iff_eq_none.mp fun hs => ?_)
        rw [Admission.raise_eq_power? hs, h0, zero_power?, if_neg hp] at hs
        exact nomatch hs
    next h0 =>
      split
      next hi =>
        refine (Num.number_gives (Num.integerPower_gives b e)).congr fun hs => ?_
        have he : e.value = e.value.num :=
          ((Rat.den_eq_one_iff _).mp (Num.isInteger_iff.mp hi)).symm
        have hb : b.value ≠ 0 := mt Num.isZero_iff.mpr h0
        have hpow := Admission.raise_eq_power? hs
        rw [hpow, he, power?_integer hb, Rat.num_intCast]
      next => exact .fresh_bind fun _ => .pure fun _ => by rw [denote, denote, denote]

namespace Expr

theorem exists_num_of_isZero {e : Expr} (h : e.isZero = true) : ∃ n, e = .num n ∧ n.value = 0 := by
  rcases e.num_or with ⟨n, rfl⟩ | hn
  · exact ⟨n, rfl, Num.isZero_iff.mp h⟩
  · rw [isZero_of_not_num hn] at h
    exact absurd h Bool.false_ne_true

theorem exists_num_of_isOne {e : Expr} (h : e.isOne = true) : ∃ n, e = .num n ∧ n.value = 1 := by
  rcases e.num_or with ⟨n, rfl⟩ | hn
  · exact ⟨n, rfl, Num.isOne_iff.mp h⟩
  · rw [isOne_of_not_num hn] at h
    exact absurd h Bool.false_ne_true

theorem ofPower_gives (b e : Expr) :
    Gives (ofPower b e) (denote A ρ) (A.raise b (b.denote A ρ) (e.denote A ρ)) := by
  have hpower : Gives (do return Expr.power (← Build.fresh) b e) (denote A ρ)
      (A.raise b (b.denote A ρ) (e.denote A ρ)) :=
    .fresh_bind fun _ => .pure fun _ => by rw [denote]
  rcases b.num_or with ⟨n, rfl⟩ | hn
  · rcases e.num_or with ⟨m, rfl⟩ | hm
    · rw [denote_num, denote_num]
      exact Num.toPower_gives n m
    · rw [ofPower_num n hm]
      split
      next h1 =>
        refine .pure fun hs => ?_
        rw [denote_num, Num.isOne_iff.mp h1] at hs ⊢
        rw [Admission.one_raise hs]
        rfl
      next => exact hpower
  · rw [ofPower_symbolic hn]
    split
    next h0 =>
      obtain ⟨m, rfl, hm⟩ := exists_num_of_isZero h0
      refine .pure fun hs => ?_
      rw [denote_num, hm] at hs ⊢
      rw [Admission.raise_zero hs]
      rfl
    next =>
      split
      next h1 =>
        obtain ⟨m, rfl, hm⟩ := exists_num_of_isOne h1
        refine .pure fun _ => ?_
        rw [denote_num, hm, Admission.raise_one]
      next => exact hpower

end Expr

/-! ## Products -/

namespace ProductDraft

variable (A ρ) in
def denote (d : ProductDraft) : Option ℚ :=
  some d.coefficient.value * denoteFactors A ρ d.exponents.entries

theorem denote_empty : ProductDraft.empty.denote A ρ = 1 := mul_one 1

theorem denote_coefficient (d : ProductDraft) (c : Num) :
    ProductDraft.denote A ρ { d with coefficient := c } =
      some c.value * denoteFactors A ρ d.exponents.entries := rfl

theorem denoteFactor_congr {k b : Expr} (h : (k == b) = true) (e : Expr) :
    denoteFactor A ρ (k, e) = denoteFactor A ρ (b, e) := by
  rw [denoteFactor, denoteFactor, Admission.raise_congr h, denote_congr h]

/-- An entry multiplies the value of the entries of the other bases. -/
theorem denote_erase {d : ProductDraft} {b e : Expr} (h : d.exponents.get? b = some e) :
    d.denote A ρ =
      ProductDraft.denote A ρ { d with exponents := d.exponents.erase b } *
        denoteFactor A ρ (b, e) := by
  obtain ⟨k, hk, hperm⟩ := Ledger.perm_erase h
  simp only [ProductDraft.denote, denoteFactors_eq]
  rw [(hperm.map _).prod_eq, List.map_cons, List.prod_cons, denoteFactor_congr hk, mul_assoc,
    mul_comm (denoteFactor A ρ (b, e))]

theorem denote_put (d : ProductDraft) (b e : Expr) :
    ProductDraft.denote A ρ { d with exponents := d.exponents.put b e } =
      ProductDraft.denote A ρ { d with exponents := d.exponents.erase b } *
        denoteFactor A ρ (b, e) := by
  obtain ⟨k, hk, hperm⟩ := Ledger.put_perm d.exponents b e
  simp only [ProductDraft.denote, denoteFactors_eq]
  rw [(hperm.map _).prod_eq, List.map_cons, List.prod_cons, denoteFactor_congr hk, mul_assoc,
    mul_comm (denoteFactor A ρ (b, e))]

/-- Where an exponent of zero makes sense, the entry may be left out. -/
theorem denote_store (d : ProductDraft) {b e : Expr}
    (h : (denoteFactor A ρ (b, e)).isSome = true) :
    ProductDraft.denote A ρ { d with exponents := d.exponents.store Expr.isZero b e } =
      ProductDraft.denote A ρ { d with exponents := d.exponents.erase b } *
        denoteFactor A ρ (b, e) := by
  rw [Ledger.store]
  split
  next h0 =>
    obtain ⟨m, rfl, hm⟩ := exists_num_of_isZero h0
    rw [denoteFactor, denote_num, hm] at h ⊢
    rw [Admission.raise_zero h, mul_one]
  next => exact d.denote_put b e

variable {sum : SignedTerms → Build Expr}

def SumGives (A : Admission) (ρ : String → Option ℚ) (sum : SignedTerms → Build Expr) : Prop :=
  ∀ terms : SignedTerms, Gives (sum terms) (Expr.denote A ρ)
    (terms.map fun p => some p.2.toNum.value * p.1.denote A ρ).sum

variable (hsum : SumGives A ρ sum)

include hsum in
theorem addExponents_gives (a b : Expr) :
    Gives (addExponents sum a b) (Expr.denote A ρ) (a.denote A ρ + b.denote A ρ) := by
  unfold addExponents
  split
  · rw [denote_num, denote_num]
    exact Num.number_gives (Num.add_gives _ _)
  · refine (hsum _).congr fun _ => ?_
    simp only [List.map_cons, List.map_nil, List.sum_cons, List.sum_nil, add_zero]
    rw [show (some Sign.plus.toNum.value : Option ℚ) = 1 from rfl, one_mul, one_mul]

include hsum in
theorem signedExponent_gives (e : Expr) (sign : Sign) :
    Gives (signedExponent sum e sign) (Expr.denote A ρ)
      (some sign.toNum.value * e.denote A ρ) := by
  cases sign with
  | plus => exact .pure fun _ => (one_mul _).symm
  | minus =>
    have hs : Gives (sum [(e, .minus)]) (Expr.denote A ρ)
        (some Sign.minus.toNum.value * e.denote A ρ) := (hsum _).congr fun _ => by
      rw [List.map_singleton, List.sum_singleton]
    cases e with
    | num n =>
      refine (Num.number_gives (Num.negate_gives n)).congr fun _ => ?_
      rw [denote_num, some_mul_some, show Sign.minus.toNum.value = -1 from rfl, neg_one_mul]
    | _ => exact hs

theorem scale_gives (d : ProductDraft) (n : Num) (sign : Sign) :
    Gives (d.scale n sign) (ProductDraft.denote A ρ)
      (d.denote A ρ * sign.raise (some n.value)) := by
  have hcoefficient : ∀ m : Build Num,
      Gives m (fun c => some c.value) (some d.coefficient.value * sign.raise (some n.value)) →
      Gives (do return { d with coefficient := ← m }) (ProductDraft.denote A ρ)
        (d.denote A ρ * sign.raise (some n.value)) := by
    intro m hm
    have hcomm : d.denote A ρ * sign.raise (some n.value) =
        some d.coefficient.value * sign.raise (some n.value) *
          denoteFactors A ρ d.exponents.entries := mul_right_comm _ _ _
    refine hm.bind (fun h => ?_) (fun _ => .pure fun _ => rfl) fun c _ h => ?_
    · rw [hcomm] at h
      exact (isSome_mul.mp h).1
    · rw [denote_coefficient, h, hcomm]
  cases sign with
  | plus => exact hcoefficient _ (Num.multiply_gives _ _)
  | minus => exact hcoefficient _ (Num.divide_gives _ _)

theorem enter_eq (d : ProductDraft) (b e : Expr) : d.enter sum b e = do
    let x ← addExponents sum ((d.exponents.get? b).getD .zero) e
    return { d with exponents := d.exponents.store Expr.isZero b x } := by
  simp [enter, Ledger.post, rule]

/-- The exponent that an entry has before and the one that is added make the new entry. -/
theorem denote_entered {d : ProductDraft} {b e x : Expr}
    (hx : x.denote A ρ = ((d.exponents.get? b).getD .zero).denote A ρ + e.denote A ρ)
    (hd : (d.denote A ρ * denoteFactor A ρ (b, e)).isSome = true) :
    ProductDraft.denote A ρ { d with exponents := d.exponents.erase b } *
      denoteFactor A ρ (b, x) = d.denote A ρ * denoteFactor A ρ (b, e) := by
  cases h : d.exponents.get? b with
  | some old =>
    rw [h, Option.getD_some] at hx
    rw [denote_erase h, mul_assoc] at hd ⊢
    rw [denoteFactor, hx, Admission.raise_add (isSome_mul.mp hd).2]
    rfl
  | none =>
    have herase : ({ d with exponents := d.exponents.erase b } : ProductDraft).denote A ρ =
        d.denote A ρ := by
      rw [ProductDraft.denote, ProductDraft.denote, (Ledger.get?_eq_none h).2.2]
    rw [h, Option.getD_none, Expr.zero, denote_num, show Num.zero.value = 0 from rfl, ← zero_eq,
      zero_add] at hx
    rw [herase, denoteFactor, denoteFactor, hx]

include hsum in
/-- A base with an exponent multiplies the draft by its power. -/
theorem enter_gives (d : ProductDraft) (b e : Expr) :
    Gives (d.enter sum b e) (ProductDraft.denote A ρ)
      (d.denote A ρ * denoteFactor A ρ (b, e)) := by
  rw [enter_eq]
  refine (addExponents_gives hsum _ e).bind (fun hd => ?_) (fun x => .pure fun _ => rfl)
    fun x hd hx => ?_
  · refine isSome_add.mpr ⟨?_, (Admission.isSome_of_raise (isSome_mul.mp hd).2).2⟩
    cases h : d.exponents.get? b with
    | none => rfl
    | some old =>
      rw [denote_erase h] at hd
      exact (Admission.isSome_of_raise (isSome_mul.mp (isSome_mul.mp hd).1).2).2
  · have hentered := denote_entered hx hd
    rw [← hentered]
    rw [← hentered] at hd
    exact denote_store d (isSome_mul.mp hd).2

include hsum in
/-- The sign of a factor goes to its exponent. -/
theorem enter_signed_gives (d : ProductDraft) (b e : Expr) (sign : Sign) :
    Gives (do d.enter sum b (← signedExponent sum e sign)) (ProductDraft.denote A ρ)
      (d.denote A ρ * sign.raise (denoteFactor A ρ (b, e))) := by
  refine (signedExponent_gives hsum e sign).bind (fun hd => ?_) (enter_gives hsum d b)
    fun x hd hx => ?_
  · have hfactor := (isSome_mul.mp hd).2
    rw [denoteFactor, ← Admission.raise_scale sign hfactor] at hfactor
    exact (Admission.isSome_of_raise hfactor).2
  · rw [denoteFactor, hx, Admission.raise_scale sign (isSome_mul.mp hd).2]
    rfl

include hsum in
theorem enterAll_gives (factors : List (Expr × Expr)) (d : ProductDraft) (sign : Sign) :
    Gives (d.enterAll sum sign factors) (ProductDraft.denote A ρ)
      (d.denote A ρ * sign.raise (denoteFactors A ρ factors)) := by
  induction factors generalizing d with
  | nil =>
    refine .pure fun _ => ?_
    rw [denoteFactors, Sign.raise_one, mul_one]
  | cons p factors ih =>
    obtain ⟨b, e⟩ := p
    have hcons : d.denote A ρ * sign.raise (denoteFactors A ρ ((b, e) :: factors)) =
        d.denote A ρ * sign.raise (denoteFactor A ρ (b, e)) *
          sign.raise (denoteFactors A ρ factors) := by
      rw [denoteFactors, Sign.raise_mul, mul_assoc]
      rfl
    rw [enterAll, List.foldlM_cons, hcons]
    exact (enter_signed_gives hsum d b e sign).bind (fun h => (isSome_mul.mp h).1)
      (fun d' => ih d') fun d' _ h => by rw [h]

include hsum in
/-- A factor multiplies the draft, a divisor divides it. -/
theorem absorb_gives (d : ProductDraft) (factor : Expr) (sign : Sign) :
    Gives (d.absorb sum factor sign) (ProductDraft.denote A ρ)
      (d.denote A ρ * sign.raise (factor.denote A ρ)) := by
  have hself : Gives (d.enter sum factor (.num sign.toNum)) (ProductDraft.denote A ρ)
      (d.denote A ρ * sign.raise (factor.denote A ρ)) := (enter_gives hsum d factor _).congr
        fun _ => by rw [denoteFactor, denote_num, Admission.raise_sign]
  cases factor with
  | num n => rw [denote_num]; exact scale_gives d n sign
  | var name => exact hself
  | power age b e =>
    refine .ite (fun _ => hself) fun _ => ?_
    rw [Expr.denote]
    exact enter_signed_gives hsum d b e sign
  | product age c factors =>
    rw [Expr.denote, Sign.raise_mul, ← mul_assoc]
    exact (scale_gives d c sign).bind (fun h => (isSome_mul.mp h).1)
      (fun d' => enterAll_gives hsum factors d' sign) fun d' _ h => by rw [h]
  | sum age c summands => exact hself

include hsum in
theorem absorbAll_gives (factors divisors : List Expr) (d : ProductDraft) :
    Gives (d.absorbAll sum factors divisors) (ProductDraft.denote A ρ)
      (d.denote A ρ * (factors.map (Expr.denote A ρ)).prod *
        inverse (divisors.map (Expr.denote A ρ)).prod) := by
  have hfold : ∀ (sign : Sign) (l : List Expr) (d : ProductDraft),
      Gives (l.foldlM (fun d e => d.absorb sum e sign) d) (ProductDraft.denote A ρ)
        (d.denote A ρ * sign.raise (l.map (Expr.denote A ρ)).prod) := by
    intro sign l
    induction l with
    | nil =>
      intro d
      refine .pure fun _ => ?_
      rw [List.map_nil, List.prod_nil, Sign.raise_one, mul_one]
    | cons e l ih =>
      intro d
      rw [List.foldlM_cons, List.map_cons, List.prod_cons, Sign.raise_mul, ← mul_assoc]
      exact (absorb_gives hsum d e sign).bind (fun h => (isSome_mul.mp h).1) (fun d' => ih d')
        fun d' _ h => by rw [h]
  exact (hfold .plus factors d).bind (fun h => (isSome_mul.mp h).1)
    (fun d' => hfold .minus divisors d') fun d' _ h => by rw [h]; rfl

include hsum in
/-- A merge that is timely keeps the value. -/
theorem unnest_gives (d : ProductDraft) (b : Expr) :
    Gives (d.unnest sum b) (ProductDraft.denote A ρ) (d.denote A ρ) := by
  unfold unnest
  split
  next e he =>
    refine .observe_bind (absorb_gives hsum _ b .plus) fun h1 _ => ?_
    obtain ⟨m, rfl, hm⟩ := exists_num_of_isOne h1
    rw [denote_erase he, denoteFactor, denote_num, hm, Admission.raise_one]
    rfl
  next => exact .observe_bind (.throw (t := none) rfl) fun h => absurd h Bool.false_ne_true

include hsum in
theorem flatten_gives (rounds : Nat) (d : ProductDraft) :
    Gives (d.flatten sum rounds) (ProductDraft.denote A ρ) (d.denote A ρ) := by
  induction rounds generalizing d with
  | zero => exact .exhausted
  | succ rounds ih =>
    rw [flatten]
    split
    · exact .pure fun _ => rfl
    · exact (Gives.foldlM (unnest_gives hsum) _ d).bind id ih fun d' _ h => h

theorem collapse_gives (d : ProductDraft) :
    Gives d.collapse (Expr.denote A ρ) (d.denote A ρ) := by
  refine .ite (fun h0 => .pure fun hd => ?_) fun _ => ?_
  · rw [ProductDraft.denote, Num.isZero_iff.mp h0] at hd ⊢
    obtain ⟨w, hw⟩ := Option.isSome_iff_exists.mp (isSome_mul.mp hd).2
    rw [hw, some_mul_some, zero_mul]
    rfl
  · split
    next h =>
      refine .pure fun _ => ?_
      rw [ProductDraft.denote, h, denoteFactors, denote_num, mul_one]
    next b e h =>
      have hone : d.denote A ρ = some d.coefficient.value * denoteFactor A ρ (b, e) := by
        rw [ProductDraft.denote, h, denoteFactors_eq, List.map_singleton, List.prod_singleton]
      refine .ite (fun h1 => ?_) fun _ => .fresh_bind fun _ => .pure fun _ => ?_
      · rw [hone, Num.isOne_iff.mp h1, ← one_eq, one_mul]
        exact ofPower_gives b e
      · rw [Expr.denote, ProductDraft.denote, h]
    next =>
      refine .fresh_bind fun _ => .pure fun _ => ?_
      rw [Expr.denote, ProductDraft.denote, denoteFactors_eq, denoteFactors_eq,
        ((Ledger.sorted_perm _ _).map _).prod_eq]

end ProductDraft

theorem Expr.productWith_gives {sum : SignedTerms → Build Expr}
    (hsum : ProductDraft.SumGives A ρ sum) (factors divisors : List Expr) :
    Gives (productWith sum factors divisors) (Expr.denote A ρ)
      ((factors.map (Expr.denote A ρ)).prod * inverse (divisors.map (Expr.denote A ρ)).prod) := by
  have habsorb := ProductDraft.absorbAll_gives hsum factors divisors .empty
  rw [ProductDraft.denote_empty, one_mul] at habsorb
  exact habsorb.bind id (fun d => (ProductDraft.flatten_gives hsum d.rounds d).bind id
    ProductDraft.collapse_gives fun _ _ h => h) fun _ _ h => h

/-! ## Sums -/

namespace SumDraft

variable (A ρ) in
def denote (d : SumDraft) : Option ℚ :=
  some d.constant.value + denoteSummands A ρ d.coefficients.entries

theorem denote_empty : SumDraft.empty.denote A ρ = 0 := add_zero 0

theorem denoteSummand_congr {k t : Expr} (h : (k == t) = true) (c : Num) :
    denoteSummand A ρ (k, c) = denoteSummand A ρ (t, c) := by
  rw [denoteSummand, denoteSummand, denote_congr h]

/-- An entry adds to the value of the entries of the other terms. -/
theorem denote_erase {d : SumDraft} {t : Expr} {c : Num} (h : d.coefficients.get? t = some c) :
    d.denote A ρ =
      SumDraft.denote A ρ { d with coefficients := d.coefficients.erase t } +
        denoteSummand A ρ (t, c) := by
  obtain ⟨k, hk, hperm⟩ := Ledger.perm_erase h
  simp only [SumDraft.denote, denoteSummands_eq]
  rw [(hperm.map _).sum_eq, List.map_cons, List.sum_cons, denoteSummand_congr hk, add_assoc,
    add_comm (denoteSummand A ρ (t, c))]

theorem denote_put (d : SumDraft) (t : Expr) (c : Num) :
    SumDraft.denote A ρ { d with coefficients := d.coefficients.put t c } =
      SumDraft.denote A ρ { d with coefficients := d.coefficients.erase t } +
        denoteSummand A ρ (t, c) := by
  obtain ⟨k, hk, hperm⟩ := Ledger.put_perm d.coefficients t c
  simp only [SumDraft.denote, denoteSummands_eq]
  rw [(hperm.map _).sum_eq, List.map_cons, List.sum_cons, denoteSummand_congr hk, add_assoc,
    add_comm (denoteSummand A ρ (t, c))]

/-- An entry with the coefficient zero may be left out if its term has a value. -/
theorem denote_store (d : SumDraft) {t : Expr} {c : Num}
    (h : (denoteSummand A ρ (t, c)).isSome = true) :
    SumDraft.denote A ρ { d with coefficients := d.coefficients.store Num.isZero t c } =
      SumDraft.denote A ρ { d with coefficients := d.coefficients.erase t } +
        denoteSummand A ρ (t, c) := by
  rw [Ledger.store]
  split
  next h0 =>
    rw [denoteSummand, Num.isZero_iff.mp h0] at h ⊢
    obtain ⟨w, hw⟩ := Option.isSome_iff_exists.mp (isSome_mul.mp h).2
    rw [show (t, c).1 = t from rfl] at hw
    rw [hw, some_mul_some, zero_mul, ← zero_eq, add_zero]
  next => exact d.denote_put t c

theorem shift_gives (d : SumDraft) (n scale : Num) :
    Gives (d.shift n scale) (SumDraft.denote A ρ)
      (d.denote A ρ + some scale.value * some n.value) := by
  have hadd : ∀ m : Num, Gives (do return { d with constant := ← d.constant.add m })
      (SumDraft.denote A ρ) (d.denote A ρ + some m.value) := fun m =>
    (Num.add_gives _ _).bind (fun _ => rfl) (fun _ => .pure fun _ => rfl) fun c _ h => by
      rw [SumDraft.denote, h, SumDraft.denote, ← some_add_some, add_right_comm]
  refine (Num.multiply_gives _ _).bind (fun _ => rfl) hadd fun m _ h => ?_
  rw [h, some_mul_some, mul_comm]

theorem enter_eq (d : SumDraft) (t : Expr) (c : Num) : d.enter t c = do
    let x ← ((d.coefficients.get? t).getD .zero).add c
    return { d with coefficients := d.coefficients.store Num.isZero t x } := by
  simp [enter, Ledger.post, rule]

/-- The coefficient that an entry has before and the one that is added make the new entry. -/
theorem denote_entered {d : SumDraft} {t : Expr} {c x : Num}
    (hx : x.value = ((d.coefficients.get? t).getD .zero).value + c.value) :
    SumDraft.denote A ρ { d with coefficients := d.coefficients.erase t } +
      denoteSummand A ρ (t, x) = d.denote A ρ + denoteSummand A ρ (t, c) := by
  cases h : d.coefficients.get? t with
  | some old =>
    rw [h, Option.getD_some] at hx
    rw [denote_erase h, add_assoc, denoteSummand, denoteSummand, denoteSummand, hx]
    cases t.denote A ρ with
    | none => simp
    | some w => simp [add_mul]
  | none =>
    have herase : ({ d with coefficients := d.coefficients.erase t } : SumDraft).denote A ρ =
        d.denote A ρ := by
      rw [SumDraft.denote, SumDraft.denote, (Ledger.get?_eq_none h).2.2]
    rw [h, Option.getD_none, show Num.zero.value = 0 from rfl, zero_add] at hx
    rw [herase, denoteSummand, denoteSummand, hx]

/-- A term with a coefficient adds to the draft. -/
theorem enter_gives (d : SumDraft) (t : Expr) (c : Num) :
    Gives (d.enter t c) (SumDraft.denote A ρ) (d.denote A ρ + denoteSummand A ρ (t, c)) := by
  rw [enter_eq]
  refine (Num.add_gives _ _).bind (fun _ => rfl) (fun x => .pure fun _ => rfl) fun x hd hx => ?_
  have hentered := denote_entered (A := A) (ρ := ρ) (Option.some.inj hx)
  rw [← hentered] at hd ⊢
  exact denote_store d (isSome_add.mp hd).2

theorem enter_scaled_gives (d : SumDraft) (t : Expr) (c scale : Num) :
    Gives (do d.enter t (← c.multiply scale)) (SumDraft.denote A ρ)
      (d.denote A ρ + some scale.value * denoteSummand A ρ (t, c)) := by
  refine (Num.multiply_gives _ _).bind (fun _ => rfl) (enter_gives d t) fun x _ hx => ?_
  rw [denoteSummand, hx, denoteSummand, ← mul_assoc, some_mul_some, mul_comm c.value]

theorem enterAll_gives (summands : List (Expr × Num)) (d : SumDraft) (scale : Num) :
    Gives (summands.foldlM (fun d (term, coefficient) => do
        d.enter term (← coefficient.multiply scale)) d) (SumDraft.denote A ρ)
      (d.denote A ρ + some scale.value * denoteSummands A ρ summands) := by
  induction summands generalizing d with
  | nil =>
    refine .pure fun _ => ?_
    rw [denoteSummands, zero_eq, some_mul_some, mul_zero, ← zero_eq, add_zero]
  | cons p summands ih =>
    obtain ⟨t, c⟩ := p
    rw [List.foldlM_cons, denoteSummands, some_mul_add, ← add_assoc]
    exact (enter_scaled_gives d t c scale).bind (fun h => (isSome_add.mp h).1) (fun d' => ih d')
      fun d' _ h => by rw [h]; rfl

/-- Splitting a product keeps its value. -/
theorem separate_gives (age : Nat) (c : Num) (factors : List (Expr × Expr)) :
    Gives (separate age c factors) (fun p => some p.1.value * p.2.denote A ρ)
      (some c.value * denoteFactors A ρ factors) := by
  unfold separate
  split
  next b e =>
    rw [denoteFactors_eq, List.map_singleton, List.prod_singleton]
    exact (ofPower_gives b e).bind (fun h => (isSome_mul.mp h).2)
      (fun _ => .pure fun _ => rfl) fun _ _ h => by rw [h]; rfl
  next =>
    refine .ite (fun h1 => .pure fun _ => ?_) fun _ => .fresh_bind fun _ => .pure fun _ => ?_
    · rw [Expr.denote, show Num.one.value = 1 from rfl, ← one_eq, one_mul]
    · rw [Expr.denote, show Num.one.value = 1 from rfl, ← one_eq, one_mul]

/-- A term adds to the draft with its scale. -/
theorem absorb_gives (d : SumDraft) (t : Expr) (scale : Num) :
    Gives (d.absorb t scale) (SumDraft.denote A ρ)
      (d.denote A ρ + some scale.value * t.denote A ρ) := by
  have hself : Gives (d.enter t scale) (SumDraft.denote A ρ)
      (d.denote A ρ + some scale.value * t.denote A ρ) := enter_gives d t scale
  cases t with
  | num n => rw [denote_num]; exact shift_gives d n scale
  | var name => exact hself
  | power age b e => exact hself
  | product age c factors =>
    rw [Expr.denote]
    exact (separate_gives age c factors).bind (fun h => (isSome_mul.mp (isSome_add.mp h).2).2)
      (fun p => enter_scaled_gives d p.2 p.1 scale) fun p _ hp => by rw [denoteSummand, hp]
  | sum age c summands =>
    rw [Expr.denote, some_mul_add, ← add_assoc]
    exact (shift_gives d c scale).bind (fun h => (isSome_add.mp h).1)
      (fun d' => enterAll_gives summands d' scale) fun d' _ h => by rw [h]

theorem absorbAll_gives (terms : SignedTerms) (d : SumDraft) :
    Gives (d.absorbAll terms) (SumDraft.denote A ρ)
      (d.denote A ρ + (terms.map fun p => some p.2.toNum.value * p.1.denote A ρ).sum) := by
  induction terms generalizing d with
  | nil => exact .pure fun _ => (add_zero _).symm
  | cons p terms ih =>
    rw [absorbAll, List.foldlM_cons, List.map_cons, List.sum_cons, ← add_assoc]
    exact (absorb_gives d p.1 p.2.toNum).bind (fun h => (isSome_add.mp h).1) (fun d' => ih d')
      fun d' _ h => by rw [h]

/-- A merge that is timely keeps the value. -/
theorem unnest_gives (d : SumDraft) (t : Expr) :
    Gives (d.unnest t) (SumDraft.denote A ρ) (d.denote A ρ) := by
  unfold unnest
  split
  next c hc =>
    refine .observe_bind (absorb_gives _ t .one) fun h1 _ => ?_
    rw [denote_erase hc, denoteSummand, Num.isOne_iff.mp h1]
    rfl
  next => exact .observe_bind (.throw (t := none) rfl) fun h => absurd h Bool.false_ne_true

theorem flatten_gives (rounds : Nat) (d : SumDraft) :
    Gives (d.flatten rounds) (SumDraft.denote A ρ) (d.denote A ρ) := by
  induction rounds generalizing d with
  | zero => exact .exhausted
  | succ rounds ih =>
    rw [flatten]
    split
    · exact .pure fun _ => rfl
    · exact (Gives.foldlM unnest_gives _ d).bind id ih fun d' _ h => h

theorem collapse_gives {product : List Expr → Build Expr}
    (hproduct : ∀ factors : List Expr,
      Gives (product factors) (Expr.denote A ρ) (factors.map (Expr.denote A ρ)).prod)
    (d : SumDraft) : Gives (d.collapse product) (Expr.denote A ρ) (d.denote A ρ) := by
  unfold collapse
  split
  next h =>
    refine .pure fun _ => ?_
    rw [SumDraft.denote, h, denoteSummands, denote_num, add_zero]
  next t c h =>
    refine .ite (fun h0 => (hproduct _).congr fun _ => ?_) fun _ => .fresh_bind fun _ =>
      .pure fun _ => ?_
    · rw [SumDraft.denote, h, Num.isZero_iff.mp h0, ← zero_eq, zero_add,
        denoteSummands_eq, List.map_singleton, List.sum_singleton, denoteSummand, List.map_cons,
        List.map_singleton, List.prod_cons, List.prod_singleton, denote_num, mul_comm]
    · rw [Expr.denote, SumDraft.denote, h]
  next =>
    refine .fresh_bind fun _ => .pure fun _ => ?_
    rw [Expr.denote, SumDraft.denote, denoteSummands_eq, denoteSummands_eq,
      ((Ledger.sorted_perm _ _).map _).sum_eq]

end SumDraft

/-! ## All levels -/

namespace Expr

theorem sumWith_gives {product : List Expr → Build Expr}
    (hproduct : ∀ factors : List Expr,
      Gives (product factors) (Expr.denote A ρ) (factors.map (Expr.denote A ρ)).prod)
    (terms : SignedTerms) : Gives (sumWith product terms) (Expr.denote A ρ)
      (terms.map fun p => some p.2.toNum.value * p.1.denote A ρ).sum := by
  have habsorb := SumDraft.absorbAll_gives (A := A) (ρ := ρ) terms .empty
  rw [SumDraft.denote_empty, zero_add] at habsorb
  exact habsorb.bind id (fun d => (SumDraft.flatten_gives d.rounds d).bind id
    (SumDraft.collapse_gives hproduct) fun _ _ h => h) fun _ _ h => h

/-- Without divisors, a product has the value of its factors. -/
theorem productWith_gives_factors {sum : SignedTerms → Build Expr}
    (hsum : ProductDraft.SumGives A ρ sum) (factors : List Expr) :
    Gives (productWith sum factors []) (Expr.denote A ρ) (factors.map (Expr.denote A ρ)).prod :=
  (productWith_gives hsum factors []).congr fun _ => by
    rw [List.map_nil, List.prod_nil, inverse_one, mul_one]

theorem sumAt_gives (level : Nat) : ProductDraft.SumGives A ρ (sumAt level) := by
  induction level with
  | zero => exact fun _ => .exhausted
  | succ level ih => exact sumWith_gives (productWith_gives_factors ih)

/-- **A sum has the value that its terms add up to.** -/
theorem ofSum_gives (terms : SignedTerms) : Gives (ofSum terms) (Expr.denote A ρ)
    (terms.map fun p => some p.2.toNum.value * p.1.denote A ρ).sum := sumAt_gives _ terms

/-- **A product has the value of its factors divided by its divisors.** -/
theorem ofProduct_gives (factors divisors : List Expr) :
    Gives (ofProduct factors divisors) (Expr.denote A ρ)
      ((factors.map (Expr.denote A ρ)).prod * inverse (divisors.map (Expr.denote A ρ)).prod) :=
  productWith_gives (sumAt_gives _) factors divisors

end Expr

end ExactAlgebra
