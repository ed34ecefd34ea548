import ExactAlgebra.Proofs.Ages.Operators
import ExactAlgebra.Proofs.Ages.Script
import ExactAlgebra.Script.Run

/-!
# Numbers combined directly

An operator on two numbers is worked out at once, and one on any other expressions by way of
canonical sums, products and powers.  The two ways do not share their case distinctions; here they
are compared where both can be taken.

* `Expr.powerByCases`: powers by the cases of the general way; `Expr.ofPower_eq_powerByCases`.
* `Script.generally`: the step that takes the general way for an operator.
* `Script.arithmetic_of_numbers`, `Script.generally_of_numbers`: the two ways, when both operands
  are or stand for numbers.
* `Script.direct_eq_general`: they have the same outcome.
-/

namespace ExactAlgebra

namespace Expr

/-- Equal expressions are of the same kind. -/
theorem kind_congr {a b : Expr} (h : (a == b) = true) : a.kind = b.kind := by
  cases a <;> cases b <;> first | rfl | exact nomatch h

/-- Two numbers of which the direct way can make a power: an integer exponent or the base zero. -/
def directPower? : Expr → Expr → Option (Num × Num)
  | .num b, .num e => if e.isInteger || b.isZero then some (b, e) else none
  | _, _ => none

/-- A power of any expressions: first the base one is passed over, then what can be worked out
directly is left to the direct way, and then the exponents zero and one are passed over. -/
def powerByCases (base exponent : Expr) : Build Expr :=
  if base.isOne then return .one
  else
    match directPower? base exponent with
    | some (b, e) => b.toPower e
    | none =>
      if exponent.isZero then return .one
      else if exponent.isOne then return base
      else return .power (← Build.fresh) base exponent

/-- On two numbers, the cases come to the direct way. -/
theorem powerByCases_num (b e : Num) : powerByCases (.num b) (.num e) = b.toPower e := by
  rw [powerByCases, isOne, directPower?, Num.toPower_eq]
  by_cases hone : b.isOne = true
  · rw [if_pos hone, if_pos hone]
  · rw [if_neg hone, if_neg hone]
    by_cases hdirect : (e.isInteger || b.isZero) = true
    · simp only [if_pos hdirect]
      rw [Num.toPower_eq, if_neg hone]
    · have hinteger : ¬ e.isInteger = true := fun h => hdirect (by rw [h]; rfl)
      have hbase : ¬ b.isZero = true := fun h => hdirect (by rw [h, Bool.or_true])
      -- Zero and one are integers.
      have hzero : ¬ (Expr.num e).isZero = true := fun h => hinteger (by
        rw [Num.isInteger_iff, Num.isZero_iff.mp h]
        rfl)
      have hexponent : ¬ (Expr.num e).isOne = true := fun h => hinteger (by
        rw [Num.isInteger_iff, Num.isOne_iff.mp h]
        rfl)
      simp only [if_neg hdirect, if_neg hzero, if_neg hexponent, if_neg hbase, if_neg hinteger]

/-- **Powers follow the cases of the general way.** -/
theorem ofPower_eq_powerByCases (base exponent : Expr) :
    ofPower base exponent = powerByCases base exponent := by
  rcases base.num_or with ⟨b, rfl⟩ | hbase
  · cases exponent with
    | num e => exact (powerByCases_num b e).symm
    | _ => rfl
  · have hone : ¬ base.isOne = true := by rw [isOne_of_not_num hbase]; exact Bool.false_ne_true
    have hdirect : directPower? base exponent = none := by
      cases base with
      | num b => cases hbase
      | _ => rfl
    rw [ofPower_symbolic hbase, powerByCases, if_neg hone, hdirect]

end Expr

namespace Script

/-! ## Operands -/

/-- A value that is or stands for a number becomes a number. -/
theorem promote_number {v : Value} {q : ℚ} (h : v.rational? = some q) (s : Supply) :
    ∃ n t, promote v s = .ok (.num n, t) ∧ n.value = q := by
  have hplain (h : v.number? = some q) : ∃ n t, promote v s = .ok (.num n, t) ∧ n.value = q :=
    ⟨_, _, congrFun (promote_of_number? h) s, Ratio.toRat_ofRat q⟩
  cases v with
  | expr e =>
    cases e with
    | num n => exact ⟨n, s, rfl, Option.some.inj h⟩
    | _ => exact nomatch h
  | _ => exact hplain h

/-- A value that is promoted goes before the values that are promoted after it. -/
theorem promoteWhile_cons {v : Value} {values : List Value} {e : Expr} {es : List Expr}
    {stopped : Bool} {s t u : Supply} (hv : promote v s = .ok (e, t))
    (hvalues : promoteWhile values t = .ok ((es, stopped), u)) :
    promoteWhile (v :: values) s = .ok ((e :: es, stopped), u) := by
  rw [promote] at hv
  rw [promoteWhile]
  cases hpromote : v.promote? with
  | none =>
    rw [hpromote] at hv
    cases hv
  | some m =>
    rw [hpromote] at hv
    dsimp only
    rw [run_bind_of_ok hv, run_bind_of_ok hvalues]
    rfl

/-- A product of values that can all be promoted is the product of their expressions. -/
theorem product_eq {factors divisors : List Value} {es ds : List Expr} {s t u : Supply}
    (hfactors : promoteWhile factors s = .ok ((es, false), t))
    (hdivisors : promoteWhile divisors t = .ok ((ds, false), u)) :
    product factors divisors s = build (Expr.ofProduct es ds) u := by
  rw [product, run_bind_of_ok hfactors]
  dsimp only
  rw [if_neg Bool.false_ne_true, run_bind_of_ok hdivisors]
  rfl

/-- A value that is or stands for a number is a term of a sum by itself. -/
theorem signedTerm_number {v : Value} {q : ℚ} (h : v.rational? = some q) :
    signedTerm (v, none) = do return (← promote v, .plus) := by
  cases v with
  | tuple items => exact nomatch h
  | _ => rfl

/-- A value with an integer is a term of a sum with its sign. -/
theorem signedTerm_size (v : Value) (size : ℤ) :
    signedTerm (v, some size) = do return (← promote v, if 0 ≤ size then .plus else .minus) := by
  cases v <;> rfl

/-! ## The two ways -/

/-- The step that takes the general way for an operator: a sum, a product or a power of any
expressions. -/
def generally (op : Arithmetic) (a b : Value) : Step Value :=
  match op with
  | .add => .ofSum [(a, none), (b, none)]
  | .subtract => .ofSum [(a, some 1), (b, some (-1))]
  | .multiply => .ofProduct [a, b] []
  | .divide => .ofProduct [a] [b]
  | .power => .ofPower a b

def answer (m : Build Expr) : Run Value := do return .expr (← build m)

section Operands

variable {a b : Value} {p q : ℚ}

/-- An operator with a number among its operands is the operator on two numbers, but for a power
with a fraction on its left. -/
theorem arithmetic_of_numbers (op : Arithmetic) (ha : a.rational? = some p)
    (hb : b.rational? = some q)
    (h : (∃ n, a = .ofNum n) ∨ (∃ n, b = .ofNum n) ∧ (op = .power → a.isFraction = false))
    (s : Supply) :
    ∃ (n m : Num) (t : Supply), n.value = p ∧ m.value = q ∧
      Step.perform (.arithmetic op a b) s = answer (n.apply op m) t := by
  have hleft (n : Num) (hn : n.value = p) : ∃ (m : Num) (t : Supply), m.value = q ∧
      Step.perform (.arithmetic op (.ofNum n) b) s = answer (n.apply op m) t := by
    obtain ⟨m, t, hm, hvalue⟩ := promote_number hb s
    exact ⟨m, t, hvalue, run_bind_of_ok hm⟩
  rcases h with ⟨n, rfl⟩ | ⟨⟨m, rfl⟩, hpower⟩
  · have hn : n.value = p := Option.some.inj ha
    obtain ⟨m, t, hm, hperform⟩ := hleft n hn
    exact ⟨n, m, t, hn, hm, hperform⟩
  · obtain ⟨n, t, hn, hvalue⟩ := promote_number ha s
    cases a with
    | expr e =>
      cases e with
      | num n =>
        obtain ⟨m, t, hm, hperform⟩ := hleft n (Option.some.inj ha)
        exact ⟨n, m, t, Option.some.inj ha, hm, hperform⟩
      | _ => exact nomatch ha
    | int _ | bool _ => exact ⟨n, m, t, hvalue, Option.some.inj hb, run_bind_of_ok hn⟩
    | fraction r =>
      cases op with
      | power => exact nomatch hpower rfl
      | _ => exact ⟨n, m, t, hvalue, Option.some.inj hb, run_bind_of_ok hn⟩
    | _ => exact nomatch ha

/-- An operator in the general way is the general operator on two numbers. -/
theorem generally_of_numbers (op : Arithmetic) (ha : a.rational? = some p)
    (hb : b.rational? = some q) (s : Supply) :
    ∃ (n m : Num) (t : Supply), n.value = p ∧ m.value = q ∧
      Step.perform (generally op a b) s = answer (Expr.applyGenerally op (.num n) (.num m)) t := by
  obtain ⟨n, t, hn, hp⟩ := promote_number ha s
  obtain ⟨m, u, hm, hq⟩ := promote_number hb t
  refine ⟨n, m, u, hp, hq, ?_⟩
  cases op with
  | add =>
    rw [generally, Step.perform, List.mapM_cons, List.mapM_cons, signedTerm_number ha,
      signedTerm_number hb]
    simp only [bind_assoc, pure_bind, List.mapM_nil, run_bind_of_ok hn, run_bind_of_ok hm]
    rfl
  | subtract =>
    rw [generally, Step.perform, List.mapM_cons, List.mapM_cons, signedTerm_size,
      signedTerm_size]
    simp only [bind_assoc, pure_bind, List.mapM_nil, run_bind_of_ok hn, run_bind_of_ok hm]
    rfl
  | multiply =>
    rw [generally, Step.perform, run_bind,
      product_eq (promoteWhile_cons hn (promoteWhile_cons hm rfl)) rfl, answer, run_bind]
    rfl
  | divide =>
    rw [generally, Step.perform, run_bind,
      product_eq (promoteWhile_cons hn rfl) (promoteWhile_cons hm rfl), answer, run_bind]
    rfl
  | power =>
    rw [generally, Step.perform, run_bind_of_ok hn, run_bind_of_ok hm]
    rfl

end Operands

/-! ## Comparison -/

/-- Both outcomes are equal expressions of one kind, or both are the same fault but for ages. -/
def SameAnswer : Except Fault (Value × Supply) → Except Fault (Value × Supply) → Prop
  | .ok (.expr r, _), .ok (.expr r', _) => (r == r') = true ∧ r.kind = r'.kind
  | .error e, .error e' => e.ageless = e'.ageless
  | _, _ => False

/-- Constructions with the same outcome, in whichever order, give the same answer. -/
theorem SameAnswer.of_outcome {m m' : Build Expr} {s s' : Supply}
    (h : Expr.SameOutcome (m s).1 (m' s').1) : SameAnswer (answer m' s') (answer m s) := by
  rw [answer, answer, run_bind, run_bind, build, build]
  rcases hm : m s with ⟨e | r, t⟩ <;> rcases hm' : m' s' with ⟨e' | r', t'⟩ <;>
    rw [hm, hm'] at h
  · exact (congrArg Fault.build h).symm
  · exact h.elim
  · exact h.elim
  · exact ⟨PartialEquivBEq.symm h, (Expr.kind_congr h).symm⟩

/-- The two ways of an operator give the same answer for operands that are or stand for numbers. -/
theorem arithmetic_generally (op : Arithmetic) {a b : Value} {p q : ℚ}
    (ha : a.rational? = some p) (hb : b.rational? = some q)
    (h : (∃ n, a = .ofNum n) ∨ (∃ n, b = .ofNum n) ∧ (op = .power → a.isFraction = false))
    (s s' : Supply) :
    SameAnswer (Step.perform (.arithmetic op a b) s) (Step.perform (generally op a b) s') := by
  obtain ⟨n, m, t, hn, hm, hdirect⟩ := arithmetic_of_numbers op ha hb h s
  obtain ⟨n', m', t', hn', hm', hgeneral⟩ := generally_of_numbers op ha hb s'
  rw [hdirect, hgeneral]
  exact .of_outcome (Expr.applyGenerally_agree op (hn'.trans hn.symm) (hm'.trans hm.symm) t' t)

/-- **Numbers are combined directly as they are in general.**  Let one operand be a number, and the
other one, on whichever side, a number or a value that stands for one; only a fraction on the left
of a power is raised by rules of its own.  What an operator makes of them directly is equal to the
sum, product or power that is built in general, and of the same kind, or both ways fail with the
same fault.  So it is with the opposite of the number.  The power that is built in general follows
its own cases for all expressions. -/
theorem direct_eq_general (n : Num) {b : Value} {q : ℚ} (hb : b.rational? = some q)
    (s s' : Supply) :
    (∀ op : Arithmetic,
      SameAnswer (Step.perform (.arithmetic op (.ofNum n) b) s)
        (Step.perform (generally op (.ofNum n) b) s')) ∧
    (∀ op : Arithmetic, (op = .power → b.isFraction = false) →
      SameAnswer (Step.perform (.arithmetic op b (.ofNum n)) s)
        (Step.perform (generally op b (.ofNum n)) s')) ∧
    SameAnswer (Step.perform (.unary .negative (.ofNum n)) s)
      (Step.perform (.ofSum [(.ofNum n, some (-1))]) s') ∧
    ∀ base exponent : Expr, Expr.ofPower base exponent = Expr.powerByCases base exponent := by
  have hn : (Value.ofNum n).rational? = some n.value := rfl
  refine ⟨fun op => ?_, fun op hpower => ?_, ?_, Expr.ofPower_eq_powerByCases⟩
  · exact arithmetic_generally op hn hb (.inl ⟨n, rfl⟩) s s'
  · exact arithmetic_generally op hb hn (.inr ⟨⟨n, rfl⟩, hpower⟩) s s'
  · have h := Expr.ofSum_neg_agree (n := n) rfl s' s
    exact SameAnswer.of_outcome h

/-- The number `3/2`. -/
def threeHalves : Num := ⟨.ofRat (3 / 2), 4⟩

/-- The number `3/2` with the fraction `-1/2`, which stands on the left of every operator but a
power, and with the integer `-2`, which stands there, too.  The general way comes later, when other
things have been built. -/
theorem direct_eq_general_three_halves :
    (∀ op : Arithmetic,
      SameAnswer (Step.perform (.arithmetic op (.ofNum threeHalves) (.fraction (-1 / 2))) .initial)
        (Step.perform (generally op (.ofNum threeHalves) (.fraction (-1 / 2))) ⟨9, id, true⟩)) ∧
    (∀ op ∈ [Arithmetic.add, .subtract, .multiply, .divide],
      SameAnswer (Step.perform (.arithmetic op (.fraction (-1 / 2)) (.ofNum threeHalves)) .initial)
        (Step.perform (generally op (.fraction (-1 / 2)) (.ofNum threeHalves)) ⟨9, id, true⟩)) ∧
    (∀ op : Arithmetic,
      SameAnswer (Step.perform (.arithmetic op (.int (-2)) (.ofNum threeHalves)) .initial)
        (Step.perform (generally op (.int (-2)) (.ofNum threeHalves)) ⟨9, id, true⟩)) ∧
    SameAnswer (Step.perform (.unary .negative (.ofNum threeHalves)) .initial)
      (Step.perform (.ofSum [(.ofNum threeHalves, some (-1))]) ⟨9, id, true⟩) := by
  obtain ⟨hright, hleft, hnegative, -⟩ := direct_eq_general threeHalves
    (b := .fraction (-1 / 2)) rfl .initial ⟨9, id, true⟩
  obtain ⟨-, hinteger, -⟩ := direct_eq_general threeHalves (b := .int (-2)) rfl
    .initial ⟨9, id, true⟩
  refine ⟨hright, fun op hop => hleft op ?_, fun op => hinteger op fun _ => rfl, hnegative⟩
  rintro rfl
  exact absurd hop (by decide)

end Script

end ExactAlgebra
