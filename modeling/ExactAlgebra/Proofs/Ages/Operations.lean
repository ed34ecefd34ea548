import ExactAlgebra.Proofs.Ages.Draft
import ExactAlgebra.Proofs.Traversal

/-!
# Simplification and substitution in two runs

Both rebuild an expression from the leaves up, in the order of its entries.  Alike expressions have
their entries in the same order, so that what is built of them is alike as well.

* `Expr.distribute_couples`, `Expr.simplify_couples`: the exponent laws.
* `Expr.substitute_couples`, `Expr.evaluate_couples`: alike values for the variables.
-/

namespace ExactAlgebra.Expr

open Build

variable {W V : Pairing}

/-! ## Entry by entry -/

/-- What is made of alike entries of products, if it is alike for each of them. -/
theorem factorsWith_couples {power power' : Expr → Expr → Build Expr}
    {factors factors' : List (Expr × Expr)} (hf : List.Forall₂ (AlikeFactor W) factors factors')
    (h : ∀ p ∈ factors, ∀ V p', W ≤ V → AlikeFactor V p p' →
      Couples V (power p.1 p.2) (power' p'.1 p'.2) Alike) :
    Couples W (factorsWith power factors) (factorsWith power' factors')
      fun V => List.Forall₂ (Alike V) := by
  induction factors generalizing W factors' with
  | nil => cases hf; exact .pure .nil
  | cons p factors ih =>
    rw [List.forall_mem_cons] at h
    cases hf with
    | cons hp hl =>
      refine (h.1 W _ le_rfl hp).bind fun V x x' hV hx => ?_
      have hrest := ih (W := V) (hl.imp fun _ _ => .mono hV) fun q hq U q' hU =>
        h.2 q hq U q' (hV.trans hU)
      exact hrest.bind fun _ _ _ hU hxs => .pure (.cons (hx.mono hU) hxs)

/-- What is made of alike entries of sums, if it is alike for each of their terms. -/
theorem summandsWith_couples {term term' : Expr → Build Expr}
    {summands summands' : List (Expr × Num)}
    (hs : List.Forall₂ (AlikeSummand W) summands summands')
    (h : ∀ p ∈ summands, ∀ V t', W ≤ V → Alike V p.1 t' → Couples V (term p.1) (term' t') Alike) :
    Couples W (summandsWith term summands) (summandsWith term' summands')
      fun V => List.Forall₂ (AlikeTerm V) := by
  induction summands generalizing W summands' with
  | nil => cases hs; exact .pure .nil
  | cons p summands ih =>
    rw [List.forall_mem_cons] at h
    cases hs with
    | cons hp hl =>
      obtain ⟨hk, hc⟩ := alikeSummand_iff.mp hp
      refine (h.1 W _ le_rfl hk.2).bind fun V t t' hV ht => ?_
      refine (ofProduct_couples (.cons ht (.cons (.num (hc.mono hV)) .nil)) .nil).bind
        fun U x x' hU hx => ?_
      have hrest := ih (W := U) (hl.imp fun _ _ => .mono (hV.trans hU)) fun q hq T t' hT =>
        h.2 q hq T t' ((hV.trans hU).trans hT)
      exact hrest.bind fun _ _ _ hT hts => .pure (.cons ⟨hx.mono hT, rfl⟩ hts)

/-- The product of a coefficient and what is made of the entries of a product. -/
theorem product_couples {m m' : Build (List Expr)} {c c' : Num} (hc : c.Alike W c')
    (hm : Couples W m m' fun V => List.Forall₂ (Alike V)) :
    Couples W (do ofProduct (.num c :: (← m)) []) (do ofProduct (.num c' :: (← m')) []) Alike :=
  hm.bind fun _ _ _ hV hxs => ofProduct_couples (.cons (.num (hc.mono hV)) hxs) .nil

/-- The sum of a constant and what is made of the entries of a sum. -/
theorem sum_couples {m m' : Build SignedTerms} {c c' : Num} (hc : c.Alike W c')
    (hm : Couples W m m' fun V => List.Forall₂ (AlikeTerm V)) :
    Couples W (do ofSum ((← m) ++ [(.num c, .plus)])) (do ofSum ((← m') ++ [(.num c', .plus)]))
      Alike :=
  hm.bind fun V _ _ hV hts => ofSum_couples (List.rel_append hts
    (.cons (show AlikeTerm V (.num c, .plus) (.num c', .plus) from ⟨.num (hc.mono hV), rfl⟩) .nil))

/-! ## Exponent laws -/

variable {a a' b b' e e' : Expr}

theorem multiplyExponents_couples (ha : Alike W a a') (hb : Alike W b b') :
    Couples W (multiplyExponents a b) (multiplyExponents a' b') Alike :=
  ofProduct_couples (.cons ha (.cons hb .nil)) .nil

theorem distributeCoefficient_couples {c c' : Num} (hc : c.Alike W c') (he : Alike W e e') :
    Couples W (distributeCoefficient c e) (distributeCoefficient c' e')
      fun V => List.Forall₂ (Alike V) :=
  .ite (by rw [hc.isOne_eq]) (fun _ => .pure .nil) fun _ =>
    (multiplyExponents_couples (.num .one) he).bind fun _ _ _ hV hx =>
      (ofPower_couples (.num (hc.mono hV)) hx).bind fun _ _ _ _ hp => .pure (.cons hp .nil)

theorem distribute_couples (hb : Alike W b b') (he : Alike W e e') :
    Couples W (distribute b e) (distribute b' e') Alike := by
  induction b generalizing W b' e e' with
  | num n => cases hb with | num hn => exact ofPower_couples (.num hn) he
  | var name => cases hb; exact ofPower_couples (.var name) he
  | power age b x ihb _ =>
    cases hb with
    | power _ hb hx =>
      exact (multiplyExponents_couples hx he).bind fun _ _ _ hV hy => ihb (hb.mono hV) hy
  | product age c factors ih =>
    cases hb with
    | product _ hc hf =>
      refine (distributeCoefficient_couples hc he).bind fun V first first' hV hfirst => ?_
      rw [distributeAll_eq, distributeAll_eq]
      refine (factorsWith_couples (hf.imp fun _ _ => .mono hV) fun p hp U p' hU hpp => ?_).bind
        fun U xs xs' hU hxs => ofProduct_couples
          (List.rel_append (hfirst.imp fun _ _ => .mono hU) hxs) .nil
      obtain ⟨hk, hx⟩ := alikeFactor_iff.mp hpp
      exact (multiplyExponents_couples hx.2 (he.mono (hV.trans hU))).bind fun _ _ _ hT hy =>
        (ih p hp).1 (hk.2.mono hT) hy
  | sum age c summands _ =>
    cases hb with
    | sum ha hc hs => exact ofPower_couples (.sum ha hc hs) he

/-- **Alike expressions are simplified alike.** -/
theorem simplify_couples (ha : Alike W a a') : Couples W a.simplify a'.simplify Alike := by
  induction a generalizing W a' with
  | num n => cases ha with | num hn => exact .pure (.num hn)
  | var name => cases ha; exact .pure (.var name)
  | power age b e ihb ihe =>
    cases ha with
    | power _ hb he =>
      exact (ihb hb).bind fun _ _ _ hV hb => (ihe (he.mono hV)).bind fun _ _ _ hU he =>
        distribute_couples (hb.mono hU) he
  | product age c factors ih =>
    cases ha with
    | product _ hc hf =>
      rw [simplify, simplify, simplifyFactors_eq, simplifyFactors_eq]
      refine product_couples hc (factorsWith_couples hf fun p hp V p' _ hpp => ?_)
      obtain ⟨hk, hx⟩ := alikeFactor_iff.mp hpp
      exact ((ih p hp).1 hk.2).bind fun _ _ _ hV hb =>
        ((ih p hp).2 (hx.2.mono hV)).bind fun _ _ _ hU he => distribute_couples (hb.mono hU) he
  | sum age c summands ih =>
    cases ha with
    | sum _ hc hs =>
      rw [simplify, simplify, simplifySummands_eq, simplifySummands_eq]
      exact sum_couples hc (summandsWith_couples hs fun p hp _ _ _ ht => ih p hp ht)

/-! ## Substitution -/

def AlikeValue (W : Pairing) (value value' : String → Option Expr) : Prop :=
  ∀ name, Option.Rel (Alike W) (value name) (value' name)

theorem AlikeValue.mono {value value' : String → Option Expr} (hV : W ≤ V)
    (h : AlikeValue W value value') : AlikeValue V value value' := fun name => by
  have hname := h name
  generalize value name = x, value' name = x' at hname ⊢
  cases hname with
  | none => exact .none
  | some h => exact .some (h.mono hV)

/-- **Alike values in alike expressions give alike expressions.** -/
theorem substitute_couples {value value' : String → Option Expr} (hv : AlikeValue W value value')
    (ha : Alike W a a') : Couples W (a.substitute value) (a'.substitute value') Alike := by
  induction a generalizing W a' with
  | num n => cases ha with | num hn => exact .pure (.num hn)
  | var name =>
    cases ha
    have hname := hv name
    rw [substitute, substitute]
    generalize value name = x, value' name = x' at hname ⊢
    cases hname with
    | none => exact .throw rfl
    | some h => exact .pure h
  | power age b e ihb ihe =>
    cases ha with
    | power _ hb he =>
      exact (ihb hv hb).bind fun _ _ _ hV hb => (ihe (hv.mono hV) (he.mono hV)).bind
        fun _ _ _ hU he => ofPower_couples (hb.mono hU) he
  | product age c factors ih =>
    cases ha with
    | product _ hc hf =>
      rw [substitute, substitute, substituteFactors_eq, substituteFactors_eq]
      refine product_couples hc (factorsWith_couples hf fun p hp V p' hV hpp => ?_)
      obtain ⟨hk, hx⟩ := alikeFactor_iff.mp hpp
      exact ((ih p hp).1 (hv.mono hV) hk.2).bind fun _ _ _ hU hb =>
        ((ih p hp).2 (hv.mono (hV.trans hU)) (hx.2.mono hU)).bind fun _ _ _ hT he =>
          ofPower_couples (hb.mono hT) he
  | sum age c summands ih =>
    cases ha with
    | sum _ hc hs =>
      rw [substitute, substitute, substituteSummands_eq, substituteSummands_eq]
      exact sum_couples hc (summandsWith_couples hs fun p hp _ _ hV ht =>
        ih p hp (hv.mono hV) ht)

def AlikeBindings (W : Pairing) : Bindings → Bindings → Prop :=
  List.Forall₂ fun p p' => p.1 = p'.1 ∧ Alike W p.2 p'.2

theorem AlikeBindings.mono {bound bound' : Bindings} (hV : W ≤ V)
    (h : AlikeBindings W bound bound') : AlikeBindings V bound bound' :=
  List.Forall₂.imp (fun _ _ h => ⟨h.1, h.2.mono hV⟩) h

theorem AlikeBindings.value {bound bound' : Bindings} (h : AlikeBindings W bound bound') :
    AlikeValue W bound.value? bound'.value? := by
  intro name
  have hrelated : Ledger.Related Eq (Alike W) ⟨bound⟩ ⟨bound'⟩ := h
  exact hrelated.get? (fun _ _ _ _ hk hk' => by rw [hk, hk']) rfl

theorem evaluate_couples {bound bound' : Bindings} (hbound : AlikeBindings W bound bound')
    (ha : Alike W a a') : Couples W (a.evaluate bound) (a'.evaluate bound') Alike :=
  substitute_couples hbound.value ha

end ExactAlgebra.Expr
