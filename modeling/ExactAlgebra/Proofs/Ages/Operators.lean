import ExactAlgebra.Proofs.Ages.Parsing
import ExactAlgebra.Proofs.Calculation
import ExactAlgebra.Proofs.Written.Brackets

/-!
# Operators in texts

Two texts in brackets that an operator joins are parsed to what the operator makes of what the texts
are parsed to.  The leaves of both texts are built first and then the two groups, while the texts by
themselves are parsed one after the other; so the two runs are coupled with a pairing that says
nothing of numbers, which are all that is built of the leaves.

* `Expr.ParsesAs`: what a text is parsed to, under every limit that does not refuse it.
* `Grammar.act_signed`, `Grammar.act_join`: what groups are worked out to.
* `Expr.applyGenerally_apply`: two numbers are combined directly as they are in general.
* `Expr.parse_operators`: texts in brackets, after a minus and joined by operators.
-/

namespace ExactAlgebra

open Build Partial ExactAlgebra.Expr

variable {W V : Pairing}

/-! ## Outcomes -/

namespace Expr

/-- Both outcomes are equal expressions, or both are the same fault but for ages. -/
abbrev SameOutcome : Except Fault Expr → Except Fault Expr → Prop :=
  AlikeOutcome fun r r' => (r == r') = true

theorem SameOutcome.of_alike {x x' : Except Fault Expr} (h : AlikeOutcome (Alike W) x x') :
    SameOutcome x x' := by
  rcases x with e | r <;> rcases x' with e' | r'
  · exact h
  · exact h
  · exact h
  · exact h.beq

/-- From the supply, the text is parsed with this outcome under every limit that does not refuse it,
and so under every limit that is high enough. -/
def ParsesAs (source : String) (s : Supply) (x : Except Fault Expr) : Prop :=
  (∀ limit, (parse limit source s).1 = .error (.text (.nesting source limit)) ∨
    SameOutcome (parse limit source s).1 x) ∧
  ∃ N, ∀ limit, N ≤ limit → SameOutcome (parse limit source s).1 x

/-- A text that is read as a tree is parsed as the tree is worked out. -/
theorem ParsesAs.of_readAs {source : String} {t : Grammar.Tree Atom} {s : Supply}
    {x : Except Fault Expr} (h : Grammar.ReadAs source.toList t)
    (hx : SameOutcome (Grammar.Tree.act t s).1 x) : ParsesAs source s x := by
  obtain ⟨hany, N, hN⟩ := Grammar.parse_limits (Grammar.tokenize_of_readAs h) s
  dsimp only at hany hN
  exact ⟨fun limit => (hany limit).imp id fun he => by rwa [he],
    N, fun limit hlimit => by rwa [hN limit hlimit]⟩

end Expr

/-! ## Numbers -/

namespace Build

/-- Constructions that work out the same number, or fail only with the same fault, agree. -/
theorem Calculates.agree {m m' : Build Expr} {t : Option ℚ} {e : Fault}
    (h : Calculates m t (· = e)) (h' : Calculates m' t (· = e)) (s s' : Supply) :
    SameOutcome (m s).1 (m' s').1 := by
  have hs := h s
  have hs' := h' s'
  generalize (m s).1 = x, (m' s').1 = x' at hs hs' ⊢
  rcases x with f | r <;> rcases x' with f' | r'
  · exact congrArg Fault.ageless (hs.2.trans hs'.2.symm)
  · obtain ⟨n, -, hn⟩ := hs'
    exact absurd (hs.1.symm.trans hn) nofun
  · obtain ⟨n, -, hn⟩ := hs
    exact absurd (hs'.1.symm.trans hn) nofun
  · obtain ⟨n, rfl, hn⟩ := hs
    obtain ⟨n', rfl, hn'⟩ := hs'
    exact Expr.num_eq_iff.mpr (Option.some.inj (hn.symm.trans hn'))

end Build

/-- A quotient of two numbers is worked out, and it fails only by dividing by zero. -/
theorem Num.divide_calculates (n m : Num) : Calculates (do return .num (← n.divide m))
    (some n.value * inverse (some m.value)) (· = .divisionByZero n.value) :=
  (Num.divide_inverse n m).bind fun c hc => .pure ⟨c, rfl, hc⟩

theorem Expr.ofProduct_quotient (n m : Num) : Calculates (ofProduct [.num n] [.num m])
    (some n.value * inverse (some m.value)) (· = .divisionByZero n.value) := by
  have hquotient := ofProduct_calculates [n] [m]
  simp only [List.map_cons, List.map_nil, List.prod_singleton] at hquotient
  by_cases hm : m.isZero = true
  · have hfault (s : Supply) :
        (ofProduct [.num n] [.num m] s).1 = .error (.divisionByZero n.value) := by
      have habsorb : (ProductDraft.empty.absorbAll (sumAt (depthOf [.num n, .num m])) [.num n]
          [.num m] s).1 = .error (.divisionByZero (1 * n.value)) := by
        simp only [ProductDraft.absorbAll, List.foldlM_cons, List.foldlM_nil, bind_pure,
          ProductDraft.absorb, ProductDraft.scale, Num.divide_eq, hm, if_true]
        exact congrArg (Except.error ∘ Fault.divisionByZero) (Ratio.toRat_multiply _ _)
      rw [one_mul] at habsorb
      exact bind_error habsorb
    intro s
    rw [hfault s, Num.isZero_iff.mp hm]
    exact ⟨rfl, rfl⟩
  · refine hquotient.mono (fun _ => id) fun e he => ?_
    rw [inverse_some fun h => hm (Num.isZero_iff.mpr h)] at he
    cases he.1

namespace Expr

/-- Coupled constructions have the same outcome. -/
theorem SameOutcome.of_couples {m m' : Build Expr} {s s' : Supply} (h : Couples W m m' Alike)
    (hs : W.Below s s') : SameOutcome (m s).1 (m' s').1 := by
  obtain ⟨V, -, -, hout⟩ := h s s' hs
  exact .of_alike hout

/-- The power of two numbers depends on their values alone. -/
theorem toPower_agree {n n' m m' : Num} (hn : n.value = n'.value) (hm : m.value = m'.value)
    (s s' : Supply) : SameOutcome (n.toPower m s).1 (n'.toPower m' s').1 := by
  rw [Num.toPower_eq, Num.toPower_eq, Num.isOne_congr hn, Num.isZero_congr hn,
    Num.isInteger_congr hm, hn, hm]
  split
  next => exact num_eq_iff.mpr rfl
  next =>
    split
    next =>
      split
      next => exact num_eq_iff.mpr rfl
      next => rfl
    next =>
      split
      next =>
        have hpower := Calculates.number (F := (· = .exhausted)) (Num.integerPower_ensures n m)
        rw [hn, hm] at hpower
        exact hpower.agree (.number (Num.integerPower_ensures n' m')) s s'
      next =>
        change ((Expr.num n == .num n') && (Expr.num m == .num m')) = true
        rw [num_eq_iff.mpr hn, num_eq_iff.mpr hm]
        rfl

/-- **Two numbers are combined directly as they are in general**, whatever else has been built. -/
theorem applyGenerally_agree (op : Arithmetic) {n n' m m' : Num} (hn : n.value = n'.value)
    (hm : m.value = m'.value) (s s' : Supply) :
    SameOutcome (applyGenerally op (.num n) (.num m) s).1 (n'.apply op m' s').1 := by
  cases op with
  | add =>
    have h := ofSum_calculates (F := (· = .exhausted)) [(n, .plus), (m, .plus)]
    rw [show ([(n, Sign.plus), (m, .plus)].map fun p => p.2.toNum.value * p.1.value).sum =
      n'.value + m'.value by simp [Sign.toNum, Num.one, hn, hm]] at h
    exact h.agree (.number (Num.add_ensures n' m')) s s'
  | subtract =>
    have h := ofSum_calculates (F := (· = .exhausted)) [(n, .plus), (m, .minus)]
    rw [show ([(n, Sign.plus), (m, .minus)].map fun p => p.2.toNum.value * p.1.value).sum =
      n'.value - m'.value by
        simp [Sign.toNum, Num.one, Num.negativeOne, hn, hm, sub_eq_add_neg]] at h
    exact h.agree (.number (Num.subtract_ensures n' m')) s s'
  | multiply =>
    have h := ofProduct_calculates_factors (F := (· = .exhausted)) [n, m]
    rw [show ([n, m].map fun x => some x.value).prod = some (n'.value * m'.value) by
      simp [hn, hm]] at h
    exact h.agree (.number (Num.multiply_ensures n' m')) s s'
  | divide =>
    have h := ofProduct_quotient n m
    rw [hn, hm] at h
    exact h.agree (n'.divide_calculates m') s s'
  | power => exact toPower_agree hn hm s s'

/-- The opposite of a number is worked out directly as it is in general. -/
theorem ofSum_neg_agree {n n' : Num} (hn : n.value = n'.value) (s s' : Supply) :
    SameOutcome (ofSum [(.num n, .minus)] s).1 ((Expr.num n').neg s').1 := by
  have h := ofSum_calculates (F := (· = .exhausted)) [(n, .minus)]
  rw [show ([(n, Sign.minus)].map fun p => p.2.toNum.value * p.1.value).sum = -n'.value by
    simp [Sign.toNum, Num.negativeOne, hn]] at h
  exact h.agree (.number (Num.negate_ensures n')) s s'

/-- An operator does what its general form does. -/
theorem applyGenerally_apply (op : Arithmetic) {a a' b b' : Expr} (ha : Alike W a a')
    (hb : Alike W b b') {s s' : Supply} (hs : W.Below s s') :
    SameOutcome (applyGenerally op a b s).1 (apply op a' b' s').1 := by
  have hgeneral := SameOutcome.of_couples (applyGenerally_couples op ha hb) hs
  cases ha with
  | num hn =>
    cases hb with
    | num hm => exact applyGenerally_agree op hn.1 hm.1 s s'
    | _ => exact hgeneral
  | _ => exact hgeneral

/-- A negation is a sum of one term that is subtracted. -/
theorem ofSum_neg {a a' : Expr} (ha : Alike W a a') {s s' : Supply} (hs : W.Below s s') :
    SameOutcome (ofSum [(a, .minus)] s).1 (a'.neg s').1 := by
  have hgeneral := SameOutcome.of_couples
    (ofSum_couples (.cons (show AlikeTerm W (a, .minus) (a', .minus) from ⟨ha, rfl⟩) .nil)) hs
  cases ha with
  | num hn => exact ofSum_neg_agree hn.1 s s'
  | _ => exact hgeneral

end Expr

/-- The expressions are alike in all pairings that say nothing of numbers. -/
def Expr.AlikeAnywhere (e e' : Expr) : Prop :=
  ∀ V : Pairing, V.countsNumbers = false → Alike V e e'

/-! ## Groups -/

namespace Grammar

/-- The expression of a tree whose leaves are built, at a depth of brackets. -/
def Tree.resolve (depth : Nat) (s : Tree Expr) : Build Expr := do
  (← Tree.groups (fun _ => return ()) depth s).combine fun _ => return ()

theorem act_eq (s : Tree Atom) : Tree.act s = (do Tree.resolve 0 (← Tree.build s)) := by
  simp only [Tree.act, Tree.actUnder, Tree.resolve, pure_bind]

/-- A group is worked out after its leaves have been built, and then the minus before it. -/
theorem act_signed (s : Tree Atom) (negated : Bool) :
    Tree.act (.term negated (.factor (.operand (.group s)))) = (do
      let e ← (do Tree.resolve 1 (← Tree.build s))
      if negated then ofSum [(e, .minus)] else return e) := by
  cases negated <;>
    simp [Tree.act, Tree.actUnder, Tree.resolve, Tree.build, Term.build, Factor.build,
      Primary.build, Tree.groups, Term.groups, Factor.groups, Primary.resolve, Sum.combine,
      Sum.raise, Term.raise, Factor.raise, Sum.total, Sum.addends, Term.product, Term.operands,
      productOf, sumOf, signIf]

/-- The leaves of two groups are built before the groups are worked out, and then the operator. -/
theorem act_join (s t : Tree Atom) (op : Arithmetic) :
    Tree.act (Tree.join (.term false (.factor (.operand (.group s)))) op.joint (.group t)) = (do
      let s ← Tree.build s
      let t ← Tree.build t
      let a ← Tree.resolve 1 s
      let b ← Tree.resolve 1 t
      applyGenerally op a b) := by
  cases op <;>
    simp [Tree.act, Tree.actUnder, Tree.resolve, Tree.build, Term.build, Factor.build,
      Primary.build, Tree.groups, Term.groups, Factor.groups, Primary.resolve, Sum.combine,
      Sum.raise, Term.raise, Factor.raise, Sum.total, Sum.addends, Term.product, Term.operands,
      productOf, sumOf, signedOperand, signIf, negative, Arithmetic.joint,
      Tree.join, Sum.onLast, Term.onLast, Factor.raiseLast, applyGenerally]

theorem resolve_couples {s s' : Tree Expr} (h : Tree.Alike W s s') (depth depth' : Nat) :
    Couples W (Tree.resolve depth s) (Tree.resolve depth' s') Expr.Alike :=
  (Tree.groups_couples (fun _ _ => .pure trivial) (fun _ _ => .pure trivial) s h).bind
    fun _ _ _ _ h => Sum.combine_couples (fun _ _ => .pure trivial) h

/-- A tree is worked out alike at all depths of brackets. -/
theorem build_resolve_couples (s : Tree Atom) (depth depth' : Nat) :
    Couples W (do Tree.resolve depth (← Tree.build s)) (do Tree.resolve depth' (← Tree.build s))
      Expr.Alike :=
  (Tree.build_couples s).bind fun _ _ _ _ h => resolve_couples h depth depth'

/-- Leaves that are built anywhere are alike, as long as the ages of numbers do not count. -/
theorem build_anywhere (s : Tree Atom) : Couples W (Tree.build s) (Tree.build s)
    fun _ => Sum.Related (Factor.Related (Primary.Related AlikeAnywhere)) := by
  refine Tree.build_related (R := fun _ => AlikeAnywhere) (fun _ h => h) (fun W a => ?_) s
  cases a with
  | number n =>
    rw [Atom.build_number]
    exact (Num.new_couples rfl).bind fun _ _ _ _ h => .pure fun V hV =>
      .num ⟨h.1, fun hcounts => nomatch hV.symm.trans hcounts⟩
  | «variable» name => exact .pure fun _ _ => .var _

/-! ### Two texts, one after the other and side by side -/

section Runs

variable {s t : Tree Atom} {a b : Expr} {σ σ' τ τ' υ ρ : Supply}

/-- A text in brackets is worked out to what the text is worked out to, and after a minus it is
negated. -/
theorem signed_outcome (hσ : σ.Valid) (ha : Tree.act s σ = (.ok a, σ')) (hυ : υ.Valid) :
    SameOutcome (Tree.act (.term false (.factor (.operand (.group s)))) υ).1 (.ok a) ∧
    ∀ ρ, σ'.Precedes ρ → SameOutcome
      (Tree.act (.term true (.factor (.operand (.group s)))) υ).1 (a.neg ρ).1 := by
  rw [act_eq] at ha
  obtain ⟨V, e, υ', -, hbelow, he, hea⟩ :=
    (build_resolve_couples s 1 0).returns (Pairing.below_constants false hυ hσ) ha
  rw [act_signed, act_signed, bind_of_ok he, bind_of_ok he]
  exact ⟨hea.beq, fun ρ hρ => ofSum_neg hea (hbelow.precedes hρ)⟩

/-- Two texts in brackets are worked out to what the texts are worked out to one after the other,
and then the operator is applied. -/
theorem join_outcome (hσ : σ.Valid) (ha : Tree.act s σ = (.ok a, σ')) (hτ : σ'.Precedes τ)
    (hb : Tree.act t τ = (.ok b, τ')) (hυ : υ.Valid) (hρ : τ'.Precedes ρ) (op : Arithmetic) :
    SameOutcome
      (Tree.act (Tree.join (.term false (.factor (.operand (.group s)))) op.joint (.group t)) υ).1
      (a.apply op b ρ).1 := by
  have hlater {r : Tree Atom} {ι ι' : Supply} {r' : Tree Expr} (hι : ι.Valid)
      (hr : Tree.build r ι = (.ok r', ι')) : ι.Precedes ι' := by
    have h := Couples.precedes (fun W => Tree.build_couples (W := W) r) hι
    rwa [hr] at h
  have hvalid : τ.Valid := by
    have h := Couples.precedes (fun W => build_resolve_couples (W := W) s 0 0) hσ
    rw [← act_eq, ha] at h
    exact hτ.valid (h.valid hσ)
  rw [act_eq] at ha hb
  obtain ⟨s₂, σ₁, hs₂, ha⟩ := bind_eq_ok ha
  obtain ⟨t₂, τ₁, ht₂, hb⟩ := bind_eq_ok hb
  -- The leaves of both texts are built.  In the other run those of the second one come later, when
  -- the first text has been worked out, so that their ages are those of another time.
  obtain ⟨V₁, s₁, υ₁, hV₁, hbelow₁, hs₁, hs⟩ :=
    (Tree.build_couples s).returns (Pairing.below_constants false hυ hσ) hs₂
  obtain ⟨-, t₁, υ₂, -, -, ht₁, ht⟩ :=
    (build_anywhere t).returns (Pairing.below_constants false hbelow₁.valid_left hvalid) ht₂
  -- The groups are worked out, one after the other in both runs.
  obtain ⟨V₂, e, υ₃, hV₂, hbelow₂, he, hea⟩ := (resolve_couples hs 1 0).returns
    (hbelow₁.precedes_left (hlater hbelow₁.valid_left ht₁)) ha
  have ht : Tree.Alike V₂ t₁ t₂ :=
    Tree.related_imp (fun _ _ h => h V₂ (hV₂.1.trans hV₁.1)) ht
  obtain ⟨V₃, f, υ₄, hV₃, hbelow₃, hf, hfb⟩ := (resolve_couples ht 1 0).returns
    ((hbelow₂.precedes hτ).precedes (hlater hvalid ht₂)) hb
  rw [act_join, bind_of_ok hs₁, bind_of_ok ht₁, bind_of_ok he, bind_of_ok hf]
  exact applyGenerally_apply op (hea.mono hV₃) hfb (hbelow₃.precedes hρ)

end Runs

end Grammar

/-! ## Texts -/

def Arithmetic.symbol (op : Arithmetic) : String := String.singleton op.operator.char

namespace Expr

/-- A balanced text that is parsed to an expression writes a tree that is worked out to it. -/
theorem exists_act {source : String} (hsource : Text.Balanced source.toList) {limit : Int}
    {σ σ' : Supply} {a : Expr} (ha : parse limit source σ = (.ok a, σ')) :
    ∃ (s : Grammar.Tree Atom) (raw : List Token),
      Token.Cut (Text.dropBlanks source.toList) raw ∧ Grammar.Tree.Writes s raw ∧
      Grammar.Tree.act s σ = (.ok a, σ') := by
  cases htokens : tokenize source with
  | error e =>
    rw [parse, htokens] at ha
    cases ha
  | ok tokens =>
    obtain ⟨s, raw, hcut, hw, rfl⟩ := Grammar.exists_writes htokens hsource
    rcases (Grammar.parse_limits htokens σ).1 limit with h | h
    · dsimp only at h
      rw [ha] at h
      cases h
    · exact ⟨s, raw, hcut, hw, h.symm.trans ha⟩

/-- **Operators in texts are the operators on expressions.**  Let a balanced text be parsed.  In
brackets it is parsed to what it is parsed to by itself, and after a minus to the negation of this.
Let another balanced text be parsed afterwards.  The two texts in brackets with an operator between
them are parsed to what the operator makes of both, or fail as it does. -/
theorem parse_operators {s : String} (hs : Text.Balanced s.toList) {limit : Int}
    {σ σ' υ : Supply} {a : Expr} (hσ : σ.Valid) (ha : parse limit s σ = (.ok a, σ'))
    (hυ : υ.Valid) :
    ParsesAs ("(" ++ s ++ ")") υ (.ok a) ∧
    (∀ ρ, σ'.Precedes ρ → ParsesAs ("-(" ++ s ++ ")") υ (a.neg ρ).1) ∧
    ∀ (t : String), Text.Balanced t.toList → ∀ (limit' : Int) (τ τ' : Supply) (b : Expr),
      σ'.Precedes τ → parse limit' t τ = (.ok b, τ') → ∀ ρ, τ'.Precedes ρ →
      ∀ op : Arithmetic,
        ParsesAs ("(" ++ s ++ ")" ++ op.symbol ++ "(" ++ t ++ ")") υ (a.apply op b ρ).1 := by
  obtain ⟨u, raw, hcut, hw, ha⟩ := exists_act hs ha
  obtain ⟨hbracketed, hnegated⟩ := Grammar.signed_outcome hσ ha hυ
  refine ⟨?_, fun ρ hρ => ?_, fun t ht limit' τ τ' b hτ hb ρ hρ op => ?_⟩
  · refine .of_readAs (t := .term false (.factor (.operand (.group u)))) ?_
      hbracketed
    have h := Grammar.readAs_signed hcut hw []
    simpa [Text.bracketed, Grammar.negative] using h
  · refine .of_readAs (t := .term true (.factor (.operand (.group u)))) ?_
      (hnegated ρ hρ)
    have h := Grammar.readAs_signed hcut hw [.minus]
    simpa [Text.bracketed, Grammar.negative, Grammar.signOperator, Operator.char] using h
  · obtain ⟨v, raw', hcut', hw', hb⟩ := exists_act ht hb
    refine .of_readAs ?_ (Grammar.join_outcome hσ ha hτ hb hυ hρ op)
    have h := Grammar.readAs_joined hcut hw hcut' hw' op
    simpa [Text.bracketed, Arithmetic.symbol] using h

/-- The expression of `x-1`. -/
def difference : Expr := .sum 9 ⟨-1, 8⟩ [(.var "x", ⟨1, 6⟩)]

/-- The expression of `2y`, built after something else. -/
def double : Expr := .product 15 ⟨2, 13⟩ [(.var "y", .num ⟨1, 14⟩)]

theorem parse_difference : parse defaultLimit "x-1" .initial =
    (.ok difference, ⟨10, id, true⟩) := by cbv

theorem parse_double : parse defaultLimit "2y" ⟨12, id, true⟩ =
    (.ok double, ⟨16, id, true⟩) := by cbv

/-- The texts `x-1` and `2y` are parsed with something built in between.  The texts in brackets are
parsed with other serial numbers than the operators are applied with. -/
theorem parse_operators_difference :
    ParsesAs ("(" ++ "x-1" ++ ")") ⟨0, fun k => 100 + 3 * k, true⟩ (.ok difference) ∧
    ParsesAs ("-(" ++ "x-1" ++ ")") .initial (difference.neg ⟨40, id, true⟩).1 ∧
    ∀ op : Arithmetic, ParsesAs ("(" ++ "x-1" ++ ")" ++ op.symbol ++ "(" ++ "2y" ++ ")") .initial
      (difference.apply op double ⟨50, id, true⟩).1 := by
  have hs : Text.Balanced "x-1".toList := by decide
  have ht : Text.Balanced "2y".toList := by decide
  have hτ : Supply.Precedes ⟨10, id, true⟩ ⟨12, id, true⟩ := ⟨strictMono_id, by decide⟩
  have hυ : Supply.Valid ⟨0, fun k => 100 + 3 * k, true⟩ :=
    ⟨fun a b h => by change 100 + 3 * a < 100 + 3 * b; omega, by decide⟩
  obtain ⟨-, hneg, hop⟩ :=
    parse_operators hs Supply.valid_initial parse_difference Supply.valid_initial
  refine ⟨(parse_operators hs Supply.valid_initial parse_difference hυ).1,
    hneg _ ⟨strictMono_id, by decide⟩, ?_⟩
  exact hop "2y" ht _ _ _ double hτ parse_double _ ⟨strictMono_id, by decide⟩

/-- A text in whose exponents `2(y+1)+1` is counted three times, and twice taken away. -/
def leftText : String := "x^(3(2(y+1)+1))(yx^(-2(2(y+1)+1)-2(y+1)))^2"

/-- A text in whose exponents `y+1` is counted three times, and twice taken away. -/
def rightText : String := "x^(3(y+1))(yx^(-2(2(y+1)+1)-2(y+1)))^-1"

/-- If the second text is parsed first, then its sum `y+1` is older than `2(y+1)+1` and is merged
before it.  When the texts are parsed side by side it is merged after it, although it then counts
three times, and two of the three are lost. -/
theorem operators_depend_on_order :
    Text.Balanced leftText.toList ∧ Text.Balanced rightText.toList ∧
    (do
      let b ← parse defaultLimit rightText
      let a ← parse defaultLimit leftText
      let product ← a.apply .multiply b
      let joined ← parse defaultLimit
        ("(" ++ leftText ++ ")" ++ Arithmetic.multiply.symbol ++ "(" ++ rightText ++ ")")
      return product == joined : Build Bool).run.toOption = some false := by
  refine ⟨by decide, by decide, ?_⟩
  -- The passes recur on positions, the actions on the trees.
  rw [Grammar.parse_eq_actUnder_get rightText (by decide +kernel),
    Grammar.parse_eq_actUnder_get leftText (by decide +kernel),
    Grammar.parse_eq_actUnder_get ("(" ++ leftText ++ ")" ++ _ ++ _ ++ rightText ++ ")")
      (by decide +kernel)]
  decide +kernel

end Expr

end ExactAlgebra
