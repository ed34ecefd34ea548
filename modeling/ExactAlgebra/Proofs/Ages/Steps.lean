import ExactAlgebra.Proofs.Ages.Script

/-!
# Steps of a script in two runs

What a script does with one value, with its parts and methods or with the order of two values ends
alike in both runs, and so does every step.  The orders of bases and of terms can be asked for two
numbers as well, so that here the ages of numbers count.

* `Script.Step.Alike`: the same step with alike operands.
* `Script.perform_couples`: a step ends alike on alike operands.
-/

namespace ExactAlgebra.Script

open ExactAlgebra.Expr

variable {W V : Pairing} {v v' w w' : Value}

/-! ## Operations on one value -/

theorem truth_eq (h : v.Alike W v') : truth v = truth v' := by
  cases h with
  | expr he =>
    cases he with
    | num hn => rw [truth, truth, hn.isZero_eq]
    | _ => rfl
  | tuple hs => cases hs <;> rfl
  | _ => rfl

theorem plain_couples (h : v.Alike W v') (f : Rat → Rat) :
    Couples W (do return plain v (f (← require .operandKind v.number?)))
      (do return plain v' (f (← require .operandKind v'.number?))) Value.Alike := by
  rw [h.number?_eq]
  exact (Couples.require_same _ _).bind fun _ _ _ hV hq => by
    subst hq
    exact .pure (plain_alike (h.mono hV) _)

theorem negative_couples (h : v.Alike W v') :
    Couples W (negative v) (negative v') Value.Alike := by
  have hplain := plain_couples h fun q => -q
  cases h with
  | expr he => exact expr_couples (neg_couples he)
  | binary bits => exact .pure (.binary _)
  | _ => exact hplain

theorem magnitude_couples (h : v.Alike W v') :
    Couples W (magnitude v) (magnitude v') Value.Alike := by
  have hplain := plain_couples h fun q => if q < 0 then -q else q
  cases h with
  | expr he =>
    cases he with
    | num hn =>
      refine ofNum_couples (.ite ?_ (fun _ => Num.negate_couples hn) fun _ => .pure hn)
      rw [Num.isNegative, Num.isNegative, hn.toRatio_eq]
    | _ => exact hplain
  | binary bits => exact .pure (.binary _)
  | _ => exact hplain

theorem unary_couples (op : Unary) (h : v.Alike W v') :
    Couples W (unary op v) (unary op v') Value.Alike := by
  cases op with
  | negative => exact negative_couples h
  | positive =>
    have hplain := plain_couples h id
    cases h with
    | expr he => exact .pure (.expr he)
    | binary bits => exact .pure (.binary bits)
    | _ => exact hplain
  | magnitude => exact magnitude_couples h
  | truth =>
    refine .pure ?_
    rw [truth_eq h]
    exact .bool _
  | integer =>
    exact (toInteger_couples h).bind fun _ _ _ _ hn => by
      subst hn
      exact .pure (.int _)
  | float => exact toBinary_couples h
  | description =>
    refine .pure ?_
    rw [h.shown_eq]
    exact .text _
  | negate =>
    have hsum := promote_bind_couples h fun V e e' _ he => ofSum_couples
      (.cons (show AlikeTerm V (e, .minus) (e', .minus) from ⟨he, rfl⟩) .nil)
    cases h with
    | expr he => exact expr_couples (neg_couples he)
    | _ => exact hsum
  | promote => exact (promote_couples h).bind fun _ _ _ _ he => .pure (.expr he)
  | simplify =>
    cases h with
    | expr he => exact expr_couples (simplify_couples he)
    | _ => exact .throw rfl

theorem style_couples (h : v.Alike W v') : Couples W (style v) (style v') fun _ => Eq := by
  have hshown := h.shown_eq
  cases h with
  | none => exact .pure rfl
  | text name => exact .require_same _ _
  | _ => exact .throw (congrArg Fault.unknownStyle hshown)

/-! ## Parts and methods -/

theorem factorsValue_alike {factors factors' : List (Expr × Expr)}
    (h : List.Forall₂ (fun p p' => Expr.Alike W p.1 p'.1 ∧ Expr.Alike W p.2 p'.2)
      factors factors') :
    (factorsValue factors).Alike W (factorsValue factors') := by
  refine .tuple ?_
  rw [List.forall₂_map_left_iff, List.forall₂_map_right_iff]
  exact h.imp fun _ _ hp => .tuple (.cons (.expr hp.1) (.cons (.expr hp.2) .nil))

theorem summandsValue_alike {summands summands' : List (Expr × Num)}
    (h : List.Forall₂ (fun p p' => Expr.Alike W p.1 p'.1 ∧ p.2.Alike W p'.2) summands summands') :
    (summandsValue summands).Alike W (summandsValue summands') := by
  refine .tuple ?_
  rw [List.forall₂_map_left_iff, List.forall₂_map_right_iff]
  exact h.imp fun _ _ hp => .tuple (.cons (.expr hp.1) (.cons (.expr (.num hp.2)) .nil))

theorem part?_alike {e e' : Expr} (h : Expr.Alike W e e') (part : Part) :
    Option.Rel (Value.Alike W) (part? e part) (part? e' part) := by
  have hheight : (Value.int e.height).Alike W (.int e'.height) := by
    rw [height_congr h.beq]
    exact .int _
  cases h with
  | num hn =>
    cases part with
    | numerator => rw [part?, part?, hn.toRatio_eq]; exact .some (.int _)
    | denominator => rw [part?, part?, hn.toRatio_eq]; exact .some (.int _)
    | height => exact .some hheight
    | _ => exact .none
  | var name =>
    cases part with
    | name => exact .some (.text name)
    | height => exact .some hheight
    | _ => exact .none
  | power _ hb he =>
    cases part with
    | base => exact .some (.expr hb)
    | exponent => exact .some (.expr he)
    | height => exact .some hheight
    | _ => exact .none
  | @product _ _ c c' factors factors' _ hc hf =>
    have hfactors : List.Forall₂ (fun p p' => Expr.Alike W p.1 p'.1 ∧ Expr.Alike W p.2 p'.2) factors
        factors' := hf.imp fun _ _ hp => ⟨(alikeFactor_iff.mp hp).1.2, (alikeFactor_iff.mp hp).2.2⟩
    cases part with
    | coefficient => exact .some (.expr (.num hc))
    | factors => exact .some (factorsValue_alike hfactors)
    | terms =>
      refine .some (factorsValue_alike ?_)
      rw [productTerms, productTerms, ← hc.isOne_eq]
      split
      · exact hfactors
      · exact .cons ⟨.num hc, .num .one⟩ hfactors
    | height => exact .some hheight
    | _ => exact .none
  | @sum _ _ c c' summands summands' _ hc hs =>
    have hsummands : List.Forall₂ (fun p p' => Expr.Alike W p.1 p'.1 ∧ p.2.Alike W p'.2) summands
        summands' := hs.imp fun _ _ hp => ⟨(alikeSummand_iff.mp hp).1.2, (alikeSummand_iff.mp hp).2⟩
    cases part with
    | constant => exact .some (.expr (.num hc))
    | summands => exact .some (summandsValue_alike hsummands)
    | terms =>
      refine .some (summandsValue_alike ?_)
      rw [sumTerms, sumTerms, ← hc.isZero_eq]
      split
      · exact hsummands
      · exact List.rel_append hsummands (.cons ⟨.num .one, hc⟩ .nil)
    | height => exact .some hheight
    | _ => exact .none

theorem get_couples (h : v.Alike W v') (part : Option Part) :
    Couples W (get v part) (get v' part) Value.Alike := by
  have hnumber (f : Rat → Int) : Couples W
      (do return .int (f (← require .noSuchPart v.number?)))
      (do return .int (f (← require .noSuchPart v'.number?))) Value.Alike := by
    rw [h.number?_eq]
    exact (Couples.require_same _ _).bind fun _ _ _ _ hq => by
      subst hq
      exact .pure (.int _)
  cases part with
  | none => cases h <;> exact .throw rfl
  | some part =>
    cases h with
    | expr he => exact .require rfl (part?_alike he part)
    | _ =>
      cases part with
      | numerator => exact hnumber Rat.num
      | denominator => exact hnumber fun q => q.den
      | _ => exact .throw rfl

/-- Related lists have related elements at every index, or none. -/
theorem rel_getElem? {R : α → β → Prop} {l : List α} {l' : List β} (h : List.Forall₂ R l l')
    (i : Nat) : Option.Rel R l[i]? l'[i]? := by
  induction h generalizing i with
  | nil => exact .none
  | cons ha _ ih =>
    cases i with
    | zero => exact .some ha
    | succ i => exact ih i

theorem item_couples (h : v.Alike W v') (index : Int) :
    Couples W (item v index) (item v' index) Value.Alike := by
  cases h with
  | @tuple items items' hs =>
    rw [item, item, hs.length_eq]
    exact .ite .rfl (fun _ => .throw rfl) fun _ => .require rfl (rel_getElem? hs _)
  | _ => exact .throw rfl

theorem apply_num_couples (op : Arithmetic) {n n' m m' : Num} (hn : n.Alike W n')
    (hm : m.Alike W m') : Build.Couples W (n.apply op m) (n'.apply op m') Expr.Alike :=
  apply_couples op (.num hn) (.num hm)

theorem numberMethod_couples (op : Arithmetic) {n n' : Num} (hn : n.Alike W n')
    (h : v.Alike W v') : Couples W (numberMethod op n v) (numberMethod op n' v') Value.Alike := by
  have hpower := promote_bind_couples h fun _ _ _ hV he => ofPower_couples (.num (hn.mono hV)) he
  have hnumber : Couples W
      (do
        let q ← require .noSuchPart v.number?
        return .expr (← build do n.apply op (← Num.ofFraction q.num q.den)))
      (do
        let q ← require .noSuchPart v'.number?
        return .expr (← build do n'.apply op (← Num.ofFraction q.num q.den))) Value.Alike := by
    rw [h.number?_eq]
    exact (Couples.require_same _ _).bind fun _ _ _ hV hq => by
      subst hq
      exact expr_couples ((Num.ofFraction_couples _ _).bind fun _ _ _ hU hm =>
        apply_num_couples op (hn.mono (hV.trans hU)) hm)
  cases op with
  | power => exact hpower
  | _ =>
    cases h with
    | expr he =>
      cases he with
      | num hm => exact expr_couples (apply_num_couples _ hn hm)
      | _ => exact hnumber
    | _ => exact hnumber

theorem callNumber_couples {n n' : Num} (hn : n.Alike W n') (method : Method)
    {args args' : List Value} (ha : List.Forall₂ (Value.Alike W) args args') :
    Couples W (call (.expr (.num n)) (some method) args)
      (call (.expr (.num n')) (some method) args') Value.Alike := by
  cases method with
  | arithmetic op =>
    cases ha with
    | nil => exact .throw rfl
    | cons hv ha =>
      cases ha with
      | nil => exact numberMethod_couples op hn hv
      | cons _ _ => exact .throw rfl
  | negate =>
    cases ha with
    | nil => exact ofNum_couples (Num.negate_couples hn)
    | cons _ _ => exact .throw rfl
  | reciprocal =>
    cases ha with
    | nil => exact expr_couples (reciprocal_couples (.num hn))
    | cons _ _ => exact .throw rfl
  | isInteger =>
    cases ha with
    | nil =>
      rw [call, call, Num.isInteger, Num.isInteger, hn.toRatio_eq]
      exact .pure (.bool _)
    | cons _ _ => exact .throw rfl
  | signum =>
    cases ha with
    | nil =>
      rw [call, call, hn.toRatio_eq]
      exact .pure (.int _)
    | cons _ _ => exact .throw rfl
  | split => exact .throw rfl

theorem call_couples (h : v.Alike W v') (method : Option Method) {args args' : List Value}
    (ha : List.Forall₂ (Value.Alike W) args args') :
    Couples W (call v method args) (call v' method args') Value.Alike := by
  cases h with
  | expr he =>
    cases method with
    | none => cases he <;> exact .throw rfl
    | some method =>
      have hreciprocal := expr_couples (reciprocal_couples he)
      cases he with
      | num hn => exact callNumber_couples hn method ha
      | product hage hc hf =>
        cases method with
        | reciprocal =>
          cases ha with
          | nil => exact hreciprocal
          | cons _ _ => exact .throw rfl
        | split =>
          cases ha with
          | nil =>
            exact (Couples.build (separate_couples hage hc hf)).bind fun _ _ _ _ hp =>
              .pure (.tuple (.cons (.expr (.num hp.1)) (.cons (.expr hp.2.2) .nil)))
          | cons _ _ => exact .throw rfl
        | _ => exact .throw rfl
      | _ =>
        cases method with
        | reciprocal =>
          cases ha with
          | nil => exact hreciprocal
          | cons _ _ => exact .throw rfl
        | _ => exact .throw rfl
  | _ => cases method <;> exact .throw rfl

/-! ## Comparison -/

theorem compare_couples (relation : Relation) (hv : v.Alike W v') (hw : w.Alike W w') :
    Couples W (compare relation v w) (compare relation v' w') fun _ => Eq := by
  have horder : Couples W (require .operandKind (v.ordered? relation w))
      (require .operandKind (v'.ordered? relation w')) fun _ => Eq := by
    rw [hv.ordered?_eq relation hw]
    exact .require_same _ _
  cases relation with
  | eq => exact .pure (hv.equal_eq hw)
  | ne => exact .pure (congrArg Bool.not (hv.equal_eq hw))
  | _ => exact horder

/-- Two expressions are in the same order, whatever the kinds of nodes that come first. -/
theorem orderOf_couples {tier : Expr → Nat} (htier : ∀ {e e'}, Expr.Alike W e e' → tier e = tier e')
    (hnumbers : W.countsNumbers = true) (hv : v.Alike W v') (hw : w.Alike W w') :
    Couples W (orderOf (compareBy tier) v w) (orderOf (compareBy tier) v' w') Value.Alike := by
  cases hv with
  | expr he =>
    cases hw with
    | expr hf =>
      rw [orderOf, orderOf, he.compareBy_eq htier hf (.inl hnumbers) (.inl hnumbers)]
      exact .pure (.int _)
    | _ => exact .throw rfl
  | _ => exact .throw rfl

/-! ## Steps -/

inductive Step.Alike (W : Pairing) : Step Value → Step Value → Prop
  | parse (text : String) (limit : Int) : Alike W (.parse text limit) (.parse text limit)
  | number (text : String) : Alike W (.number text) (.number text)
  | «variable» {v v' : Value} : v.Alike W v' → Alike W (.variable v) (.variable v')
  | rational {args args' : List Value} : List.Forall₂ (Value.Alike W) args args' →
    Alike W (.rational args) (.rational args')
  | constant {n n' : Num} : n.Alike W n' → Alike W (.constant n) (.constant n')
  | arithmetic (op : Arithmetic) {v v' w w' : Value} : v.Alike W v' → w.Alike W w' →
    Alike W (.arithmetic op v w) (.arithmetic op v' w')
  | compare (relation : Relation) {v v' w w' : Value} : v.Alike W v' → w.Alike W w' →
    Alike W (.compare relation v w) (.compare relation v' w')
  | compareBases {v v' w w' : Value} : v.Alike W v' → w.Alike W w' →
    Alike W (.compareBases v w) (.compareBases v' w')
  | compareTerms {v v' w w' : Value} : v.Alike W v' → w.Alike W w' →
    Alike W (.compareTerms v w) (.compareTerms v' w')
  | ofPower {v v' w w' : Value} : v.Alike W v' → w.Alike W w' →
    Alike W (.ofPower v w) (.ofPower v' w')
  | ofSum {addends addends' : List (Value × Option Int)} :
    List.Forall₂ (fun p p' => p.1.Alike W p'.1 ∧ p.2 = p'.2) addends addends' →
    Alike W (.ofSum addends) (.ofSum addends')
  | ofProduct {factors factors' divisors divisors' : List Value} :
    List.Forall₂ (Value.Alike W) factors factors' →
    List.Forall₂ (Value.Alike W) divisors divisors' →
    Alike W (.ofProduct factors divisors) (.ofProduct factors' divisors')
  | unary (op : Unary) {v v' : Value} : v.Alike W v' → Alike W (.unary op v) (.unary op v')
  | evaluate {v v' : Value} {bindings bindings' : Pairs Value} (overwrite : Bool)
    {values values' : Pairs Value} : v.Alike W v' → AlikePairs W bindings bindings' →
    AlikePairs W values values' →
    Alike W (.evaluate v bindings overwrite values) (.evaluate v' bindings' overwrite values')
  | format {v v' style style' : Value} : v.Alike W v' → style.Alike W style' →
    Alike W (.format v style) (.format v' style')
  | get {v v' : Value} (part : Option Part) : v.Alike W v' → Alike W (.get v part) (.get v' part)
  | entry {v v' : Value} (part : Option Part) (index side : Int) : v.Alike W v' →
    Alike W (.entry v part index side) (.entry v' part index side)
  | call {v v' : Value} (method : Option Method) {args args' : List Value} : v.Alike W v' →
    List.Forall₂ (Value.Alike W) args args' →
    Alike W (.call v method args) (.call v' method args')

theorem reserved_eq {values values' : Pairs Value} (h : AlikePairs W values values') :
    (values.any fun (name, _) => reservedNames.contains name) =
      values'.any fun (name, _) => reservedNames.contains name := by
  induction h with
  | nil => rfl
  | cons hp _ ih => simp only [List.any_cons, hp.1, ih]

/-- **A step ends alike on alike operands.** -/
theorem perform_couples {step step' : Step Value} (hnumbers : W.countsNumbers = true)
    (h : step.Alike W step') : Couples W step.perform step'.perform Value.Alike := by
  cases h with
  | parse text limit => exact expr_couples (parse_couples limit text)
  | number text => exact ofNum_couples (Num.parse_couples text)
  | «variable» hv =>
    have hshown := hv.shown_eq
    cases hv with
    | text name =>
      exact .ite .rfl (fun _ => .throw rfl) fun _ => .pure (.expr (.var name))
    | _ => exact .throw (congrArg Fault.illegalName hshown)
  | rational ha =>
    exact (quotientOf_couples ha).bind fun _ _ _ _ h => by
      subst h
      exact ofNum_couples (Num.ofFraction_couples _ _)
  | constant hn => exact .pure (.expr (.num hn))
  | arithmetic op hv hw => exact arithmetic_couples op hv hw
  | compare relation hv hw =>
    exact (compare_couples relation hv hw).bind fun _ _ _ _ h => by
      subst h
      exact .pure (.bool _)
  | compareBases hv hw => exact orderOf_couples Alike.baseTier_eq hnumbers hv hw
  | compareTerms hv hw => exact orderOf_couples Alike.termTier_eq hnumbers hv hw
  | ofPower hv hw =>
    exact (promote_couples hv).bind fun _ _ _ hV he =>
      promote_bind_couples (hw.mono hV) fun _ _ _ hU hf => ofPower_couples (he.mono hU) hf
  | @ofSum addends addends' ha =>
    have hterms : Couples W (addends.mapM signedTerm) (addends'.mapM signedTerm)
        fun V => List.Forall₂ (AlikeTerm V) :=
      .mapM ha (fun hV h => ⟨h.1.mono hV, h.2⟩) AlikeTerm.mono fun _ _ _ h => signedTerm_couples h
    exact hterms.bind fun _ _ _ _ ht => expr_couples (ofSum_couples ht)
  | ofProduct hf hx =>
    exact (product_couples hf hx).bind fun _ _ _ _ he => .pure (.expr he)
  | unary op hv => exact unary_couples op hv
  | evaluate overwrite hv hb hvalues =>
    cases hv with
    | expr he =>
      refine .ite (by rw [reserved_eq hvalues]) (fun _ => .throw rfl) fun _ => ?_
      exact (evaluate_couples he hb overwrite hvalues).bind fun _ _ _ _ he => .pure (.expr he)
    | _ => exact .throw rfl
  | format hv hstyle =>
    cases hv with
    | expr he =>
      exact (style_couples hstyle).bind fun _ _ _ _ h => by
        subst h
        rw [he.format_eq]
        exact .pure (.text _)
    | _ => exact .throw rfl
  | get part hv => exact get_couples hv part
  | entry part index side hv =>
    exact (get_couples hv part).bind fun _ _ _ _ hv => (item_couples hv index).bind
      fun _ _ _ _ hv => item_couples hv side
  | call method hv ha => exact call_couples hv method ha

end ExactAlgebra.Script
