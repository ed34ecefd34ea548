import ExactAlgebra.Expr.Operators
import ExactAlgebra.Proofs.Ages.Coupling

/-!
# Products and sums in two runs

The drafts of products and of sums keep their entries in the order in which the keys came in, and a
finished draft orders them by age.  From alike operands the drafts are alike at every turn, and so
are the products and sums in the end.

* `ProductDraft.Alike`, `SumDraft.Alike`: drafts that are the same but for ages.
* `Expr.ofProduct_couples`, `Expr.ofSum_couples`: products and sums of alike operands.
* `Expr.apply_couples`: the operators on alike operands.
-/

namespace ExactAlgebra

open Build ExactAlgebra.Expr

variable {W V : Pairing}

def Expr.AlikeTerm (W : Pairing) (p p' : Expr × Sign) : Prop := Alike W p.1 p'.1 ∧ p.2 = p'.2

theorem Expr.AlikeTerm.mono {p p' : Expr × Sign} (hV : W ≤ V) (h : AlikeTerm W p p') :
    AlikeTerm V p p' := ⟨h.1.mono hV, h.2⟩

/-! ## Products -/

namespace ProductDraft

variable {d d' : ProductDraft} {e e' : Expr}

def Alike (W : Pairing) (d d' : ProductDraft) : Prop :=
  d.coefficient.Alike W d'.coefficient ∧
    d.exponents.Related (AlikeKey W) (AlikeExponent W) d'.exponents

theorem Alike.mono (hV : W ≤ V) (h : Alike W d d') : Alike V d d' :=
  ⟨h.1.mono hV, h.2.mono (fun _ _ => .mono hV) fun _ _ => .mono hV⟩

theorem Alike.empty : Alike W .empty .empty := ⟨.one, .empty⟩

theorem scale_couples (hd : Alike W d d') {n n' : Num} (hn : n.Alike W n') (sign : Sign) :
    Couples W (d.scale n sign) (d'.scale n' sign) Alike := by
  cases sign with
  | plus =>
    exact (Num.multiply_couples hd.1 hn).bind fun _ _ _ hV h => .pure ⟨h, (hd.mono hV).2⟩
  | minus =>
    exact (Num.divide_couples hd.1 hn).bind fun _ _ _ hV h => .pure ⟨h, (hd.mono hV).2⟩

theorem Alike.nested (hd : Alike W d d') : List.Forall₂ (AlikeKey W) d.nested d'.nested := by
  refine hd.2.filter_keys ?_
  rintro ⟨k, e⟩ ⟨k', e'⟩ hk he
  simp only [isProduct_congr hk.2.beq, he.2.isOne_eq]

theorem Alike.rounds_eq (hd : Alike W d d') : d.rounds = d'.rounds := by
  rw [rounds, rounds, hd.2.map_keys fun _ _ hk => size_congr hk.2.beq]

theorem collapse_couples (hd : Alike W d d') : Couples W d.collapse d'.collapse Expr.Alike := by
  refine .ite (by rw [hd.1.isZero_eq]) (fun _ => .pure (.num .zero)) fun _ => ?_
  have hsorted := hd.2.sorted fun _ _ _ _ => AlikeKey.compareBases_eq
  have hmany : Couples W
      (do return .product (← Build.fresh) d.coefficient (d.exponents.sorted compareBases))
      (do return .product (← Build.fresh) d'.coefficient (d'.exponents.sorted compareBases))
      Expr.Alike :=
    Couples.fresh.bind fun _ _ _ hV ha => .pure (.product ha (hd.1.mono hV)
      (hsorted.imp fun _ _ h => (alikeFactor_iff.mpr h).mono hV))
  obtain ⟨c, ⟨entries⟩⟩ := d
  obtain ⟨c', ⟨entries'⟩⟩ := d'
  obtain ⟨hc, he⟩ := hd
  change List.Forall₂ _ entries entries' at he
  cases he with
  | nil => exact .pure (.num hc)
  | cons hp hl =>
    cases hl with
    | cons _ _ => exact hmany
    | nil =>
      refine .ite (by rw [hc.isOne_eq]) (fun _ => ofPower_couples hp.1.2 hp.2.2) fun _ => ?_
      exact Couples.fresh.bind fun _ _ _ hV ha => .pure (.product ha (hc.mono hV)
        (.cons ((alikeFactor_iff.mpr hp).mono hV) .nil))

variable {sum : SignedTerms → Build Expr}
  (hsum : ∀ {W terms terms'}, List.Forall₂ (AlikeTerm W) terms terms' →
    Couples W (sum terms) (sum terms') Expr.Alike)

include hsum

theorem addExponents_couples {a a' b b' : Expr} (ha : Expr.Alike W a a') (hb : Expr.Alike W b b') :
    Couples W (addExponents sum a b) (addExponents sum a' b') Expr.Alike := by
  have hs := hsum (.cons (show AlikeTerm W (a, .plus) (a', .plus) from ⟨ha, rfl⟩)
    (.cons (show AlikeTerm W (b, .plus) (b', .plus) from ⟨hb, rfl⟩) .nil))
  cases ha with
  | num ha =>
    cases hb with
    | num hb => exact number_couples (Num.add_couples ha hb)
    | _ => exact hs
  | _ => exact hs

theorem signedExponent_couples (he : Expr.Alike W e e') (sign : Sign) :
    Couples W (signedExponent sum e sign) (signedExponent sum e' sign) Expr.Alike := by
  cases sign with
  | plus => exact .pure he
  | minus =>
    have hs := hsum (.cons (show AlikeTerm W (e, .minus) (e', .minus) from ⟨he, rfl⟩) .nil)
    cases he with
    | num he => exact number_couples (Num.negate_couples he)
    | _ => exact hs

theorem enter_couples (hd : Alike W d d') {k k' : Expr} (hk : AlikeKey W k k')
    (he : Expr.Alike W e e') : Couples W (d.enter sum k e) (d'.enter sum k' e') Alike := by
  refine (Ledger.post_couples (A := Expr.Alike) hd.2 AlikeExponent.mono hk
    (.num .zero) (fun _ _ h => h.2) (fun _ _ _ h => ⟨h.isZero_eq, fun hz => ⟨hz, h⟩⟩)
    fun _ _ hold => addExponents_couples hsum hold he).bind fun _ _ _ hV hl => ?_
  exact .pure ⟨hd.1.mono hV, hl⟩

theorem enterAll_couples (hd : Alike W d d') (sign : Sign) {factors factors' : List (Expr × Expr)}
    (hf : List.Forall₂ (AlikeFactor W) factors factors') :
    Couples W (d.enterAll sum sign factors) (d'.enterAll sum sign factors') Alike := by
  refine Couples.foldlM hf AlikeFactor.mono hd fun V d d' p p' _ hd hp => ?_
  obtain ⟨hk, he⟩ := alikeFactor_iff.mp hp
  exact (signedExponent_couples hsum he.2 sign).bind fun _ _ _ hV he =>
    enter_couples hsum (hd.mono hV) (hk.mono hV) he

theorem absorb_couples (hd : Alike W d d') {x x' : Expr} (hx : Expr.Alike W x x') (sign : Sign) :
    Couples W (d.absorb sum x sign) (d'.absorb sum x' sign) Alike := by
  have hself : x.isNum = false →
      Couples W (d.enter sum x (.num sign.toNum)) (d'.enter sum x' (.num sign.toNum)) Alike :=
    fun hn => enter_couples hsum hd ⟨hn, hx⟩ (.num (.ofSign sign))
  cases hx with
  | num hn => exact scale_couples hd hn sign
  | var name => exact hself rfl
  | power ha hb he =>
    refine .ite (by rw [hb.isNum_eq]) (fun _ => hself rfl) fun hn => ?_
    exact (signedExponent_couples hsum he sign).bind fun _ _ _ hV he =>
      enter_couples hsum (hd.mono hV) ⟨by simpa using hn, hb.mono hV⟩ he
  | product ha hc hf =>
    exact (scale_couples hd hc sign).bind fun _ _ _ hV hd =>
      enterAll_couples hsum hd sign (hf.imp fun _ _ => .mono hV)
  | sum ha hc hs => exact hself rfl

theorem absorbAll_couples (hd : Alike W d d') {factors factors' divisors divisors' : List Expr}
    (hf : List.Forall₂ (Expr.Alike W) factors factors')
    (hx : List.Forall₂ (Expr.Alike W) divisors divisors') :
    Couples W (d.absorbAll sum factors divisors) (d'.absorbAll sum factors' divisors') Alike := by
  refine (Couples.foldlM hf Expr.Alike.mono hd fun _ _ _ _ _ _ hd hx =>
    absorb_couples hsum hd hx .plus).bind fun V d d' hV hd => ?_
  have hx : List.Forall₂ (Expr.Alike V) divisors divisors' := hx.imp fun _ _ => .mono hV
  exact Couples.foldlM hx Expr.Alike.mono hd fun _ _ _ _ _ _ hd hx =>
    absorb_couples hsum hd hx .minus

theorem unnest_couples (hd : Alike W d d') {k k' : Expr} (hk : AlikeKey W k k') :
    Couples W (d.unnest sum k) (d'.unnest sum k') Alike := by
  have hget := hd.2.get? (fun _ _ _ _ => AlikeKey.beq_eq) hk
  have herase : Alike W { d with exponents := d.exponents.erase k }
      { d' with exponents := d'.exponents.erase k' } :=
    ⟨hd.1, hd.2.erase (fun _ _ _ _ => AlikeKey.beq_eq) hk⟩
  unfold unnest
  generalize d.exponents.get? k = old, d'.exponents.get? k' = old' at hget
  cases hget with
  | none =>
    exact (Couples.observe _ _).bind fun _ _ _ _ _ =>
      .throw (congrArg Fault.missingEntry hk.2.ageless_eq)
  | some _ =>
    exact (Couples.observe _ _).bind fun _ _ _ hV _ =>
      absorb_couples hsum (herase.mono hV) (hk.2.mono hV) .plus

theorem flatten_couples (rounds : Nat) (hd : Alike W d d') :
    Couples W (d.flatten sum rounds) (d'.flatten sum rounds) Alike := by
  induction rounds generalizing W d d' with
  | zero => exact .throw rfl
  | succ rounds ih =>
    have hnested := hd.nested
    rw [flatten, flatten]
    generalize d.nested = keys, d'.nested = keys' at hnested
    cases hnested with
    | nil => exact .pure hd
    | cons hk hl =>
      exact (Couples.foldlM (.cons hk hl) AlikeKey.mono hd fun _ _ _ _ _ _ hd hk =>
        unnest_couples hsum hd hk).bind fun _ _ _ _ hd => ih hd

end ProductDraft

/-! ## Sums -/

namespace SumDraft

variable {d d' : SumDraft}

def Alike (W : Pairing) (d d' : SumDraft) : Prop :=
  d.constant.Alike W d'.constant ∧
    d.coefficients.Related (AlikeKey W) (Num.Alike W) d'.coefficients

theorem Alike.mono (hV : W ≤ V) (h : Alike W d d') : Alike V d d' :=
  ⟨h.1.mono hV, h.2.mono (fun _ _ => .mono hV) fun _ _ => .mono hV⟩

theorem Alike.empty : Alike W .empty .empty := ⟨.zero, .empty⟩

theorem enter_couples (hd : Alike W d d') {k k' : Expr} (hk : AlikeKey W k k') {c c' : Num}
    (hc : c.Alike W c') : Couples W (d.enter k c) (d'.enter k' c') Alike := by
  refine (Ledger.post_couples (A := Num.Alike) hd.2 Num.Alike.mono hk .zero
    (fun _ _ => id) (fun _ _ _ h => ⟨h.isZero_eq, fun _ => h⟩)
    fun _ _ hold => Num.add_couples hold hc).bind fun _ _ _ hV hl => ?_
  exact .pure ⟨hd.1.mono hV, hl⟩

theorem shift_couples (hd : Alike W d d') {n n' c c' : Num} (hn : n.Alike W n')
    (hc : c.Alike W c') : Couples W (d.shift n c) (d'.shift n' c') Alike :=
  (Num.multiply_couples hn hc).bind fun _ _ _ hV h =>
    (Num.add_couples (hd.1.mono hV) h).bind fun _ _ _ hU h =>
      .pure ⟨h, (hd.mono (hV.trans hU)).2⟩

theorem absorb_couples (hd : Alike W d d') {t t' : Expr} (ht : Expr.Alike W t t') {c c' : Num}
    (hc : c.Alike W c') : Couples W (d.absorb t c) (d'.absorb t' c') Alike := by
  have hself : t.isNum = false → Couples W (d.enter t c) (d'.enter t' c') Alike :=
    fun hn => enter_couples hd ⟨hn, ht⟩ hc
  cases ht with
  | num hn => exact shift_couples hd hn hc
  | var name => exact hself rfl
  | power ha hb he => exact hself rfl
  | product ha hk hf =>
    exact (separate_couples ha hk hf).bind fun _ _ _ hV h =>
      (Num.multiply_couples h.1 (hc.mono hV)).bind fun _ _ _ hU hn =>
        enter_couples (hd.mono (hV.trans hU)) (h.2.mono hU) hn
  | sum ha hk hs =>
    refine (shift_couples hd hk hc).bind fun V d d' hV hd => ?_
    have hs : List.Forall₂ (AlikeSummand V) _ _ := hs.imp fun _ _ => .mono hV
    refine Couples.foldlM hs AlikeSummand.mono hd fun U d d' p p' hU hd hp => ?_
    obtain ⟨hk, hn⟩ := alikeSummand_iff.mp hp
    exact (Num.multiply_couples hn (hc.mono (hV.trans hU))).bind fun _ _ _ hV hn =>
      enter_couples (hd.mono hV) (hk.mono hV) hn

theorem absorbAll_couples (hd : Alike W d d') {terms terms' : SignedTerms}
    (ht : List.Forall₂ (AlikeTerm W) terms terms') :
    Couples W (d.absorbAll terms) (d'.absorbAll terms') Alike := by
  refine Couples.foldlM ht AlikeTerm.mono hd fun V d d' p p' _ hd hp => ?_
  obtain ⟨t, sign⟩ := p
  obtain ⟨t', sign'⟩ := p'
  obtain ⟨ht, rfl⟩ := hp
  exact absorb_couples hd ht (.ofSign sign)

theorem Alike.nested (hd : Alike W d d') : List.Forall₂ (AlikeKey W) d.nested d'.nested := by
  refine hd.2.filter_keys ?_
  rintro ⟨k, c⟩ ⟨k', c'⟩ hk hc
  simp only [isSum_congr hk.2.beq, hc.isOne_eq]

theorem Alike.rounds_eq (hd : Alike W d d') : d.rounds = d'.rounds := by
  rw [rounds, rounds, hd.2.map_keys fun _ _ hk => size_congr hk.2.beq]

theorem unnest_couples (hd : Alike W d d') {k k' : Expr} (hk : AlikeKey W k k') :
    Couples W (d.unnest k) (d'.unnest k') Alike := by
  have hget := hd.2.get? (fun _ _ _ _ => AlikeKey.beq_eq) hk
  have herase : Alike W { d with coefficients := d.coefficients.erase k }
      { d' with coefficients := d'.coefficients.erase k' } :=
    ⟨hd.1, hd.2.erase (fun _ _ _ _ => AlikeKey.beq_eq) hk⟩
  unfold unnest
  generalize d.coefficients.get? k = old, d'.coefficients.get? k' = old' at hget
  cases hget with
  | none =>
    exact (Couples.observe _ _).bind fun _ _ _ _ _ =>
      .throw (congrArg Fault.missingEntry hk.2.ageless_eq)
  | some _ =>
    exact (Couples.observe _ _).bind fun _ _ _ hV _ =>
      absorb_couples (herase.mono hV) (hk.2.mono hV) .one

theorem flatten_couples (rounds : Nat) (hd : Alike W d d') :
    Couples W (d.flatten rounds) (d'.flatten rounds) Alike := by
  induction rounds generalizing W d d' with
  | zero => exact .throw rfl
  | succ rounds ih =>
    have hnested := hd.nested
    rw [flatten, flatten]
    generalize d.nested = keys, d'.nested = keys' at hnested
    cases hnested with
    | nil => exact .pure hd
    | cons hk hl =>
      exact (Couples.foldlM (.cons hk hl) AlikeKey.mono hd fun _ _ _ _ _ _ hd hk =>
        unnest_couples hd hk).bind fun _ _ _ _ hd => ih hd

theorem collapse_couples {product : List Expr → Build Expr}
    (hproduct : ∀ {factors factors' : List Expr}, List.Forall₂ (Expr.Alike W) factors factors' →
      Couples W (product factors) (product factors') Expr.Alike)
    (hd : Alike W d d') : Couples W (d.collapse product) (d'.collapse product) Expr.Alike := by
  have hsorted := hd.2.sorted fun _ _ _ _ => AlikeKey.compareTerms_eq
  have hmany : Couples W
      (do return .sum (← Build.fresh) d.constant (d.coefficients.sorted compareTerms))
      (do return .sum (← Build.fresh) d'.constant (d'.coefficients.sorted compareTerms))
      Expr.Alike :=
    Couples.fresh.bind fun _ _ _ hV ha => .pure (.sum ha (hd.1.mono hV)
      (hsorted.imp fun _ _ h => (alikeSummand_iff.mpr h).mono hV))
  obtain ⟨c, ⟨entries⟩⟩ := d
  obtain ⟨c', ⟨entries'⟩⟩ := d'
  obtain ⟨hc, he⟩ := hd
  change List.Forall₂ _ entries entries' at he
  cases he with
  | nil => exact .pure (.num hc)
  | cons hp hl =>
    cases hl with
    | cons _ _ => exact hmany
    | nil =>
      refine .ite (by rw [hc.isZero_eq])
        (fun _ => hproduct (.cons hp.1.2 (.cons (.num hp.2) .nil))) fun _ => ?_
      exact Couples.fresh.bind fun _ _ _ hV ha => .pure (.sum ha (hc.mono hV)
        (.cons ((alikeSummand_iff.mpr hp).mono hV) .nil))

end SumDraft

/-! ## Operations -/

namespace Expr

variable {a a' b b' : Expr} {factors factors' divisors divisors' : List Expr}
  {terms terms' : SignedTerms}

theorem productWith_couples {sum : SignedTerms → Build Expr}
    (hsum : ∀ {W terms terms'}, List.Forall₂ (AlikeTerm W) terms terms' →
      Couples W (sum terms) (sum terms') Alike)
    (hf : List.Forall₂ (Alike W) factors factors')
    (hx : List.Forall₂ (Alike W) divisors divisors') :
    Couples W (productWith sum factors divisors) (productWith sum factors' divisors') Alike :=
  (ProductDraft.absorbAll_couples hsum .empty hf hx).bind fun _ d d' _ hd => by
    rw [ProductDraft.finish, ProductDraft.finish, hd.rounds_eq]
    exact (ProductDraft.flatten_couples hsum _ hd).bind fun _ _ _ _ hd =>
      ProductDraft.collapse_couples hd

theorem sumAt_couples (level : Nat) (ht : List.Forall₂ (AlikeTerm W) terms terms') :
    Couples W (sumAt level terms) (sumAt level terms') Alike := by
  induction level generalizing W terms terms' with
  | zero => exact .throw rfl
  | succ level ih =>
    refine (SumDraft.absorbAll_couples .empty ht).bind fun _ d d' _ hd => ?_
    rw [SumDraft.finish, SumDraft.finish, hd.rounds_eq]
    exact (SumDraft.flatten_couples _ hd).bind fun _ _ _ _ hd =>
      SumDraft.collapse_couples (fun hf => productWith_couples ih hf .nil) hd

theorem depthOf_eq (h : List.Forall₂ (Alike W) factors factors') :
    depthOf factors = depthOf factors' := by
  induction h with
  | nil => rfl
  | cons ha _ ih =>
    simp only [depthOf, List.map_cons, List.foldr_cons] at ih ⊢
    rw [ha.exponentDepth_eq, ih]

/-- **Sums of alike terms are alike.** -/
theorem ofSum_couples (ht : List.Forall₂ (AlikeTerm W) terms terms') :
    Couples W (ofSum terms) (ofSum terms') Alike := by
  have hdepth : List.Forall₂ (Alike W) (terms.map Prod.fst) (terms'.map Prod.fst) := by
    rw [List.forall₂_map_left_iff, List.forall₂_map_right_iff]
    exact ht.imp fun _ _ h => h.1
  rw [ofSum, ofSum, depthOf_eq hdepth]
  exact sumAt_couples _ ht

/-- **Products of alike factors and divisors are alike.** -/
theorem ofProduct_couples (hf : List.Forall₂ (Alike W) factors factors')
    (hx : List.Forall₂ (Alike W) divisors divisors') :
    Couples W (ofProduct factors divisors) (ofProduct factors' divisors') Alike := by
  rw [ofProduct, ofProduct, depthOf_eq (List.rel_append hf hx)]
  exact productWith_couples (sumAt_couples _) hf hx

theorem neg_couples (ha : Alike W a a') : Couples W a.neg a'.neg Alike := by
  have hs := ofSum_couples
    (.cons (show AlikeTerm W (a, .minus) (a', .minus) from ⟨ha, rfl⟩) .nil)
  cases ha with
  | num hn => exact number_couples (Num.negate_couples hn)
  | _ => exact hs

theorem reciprocal_couples (ha : Alike W a a') : Couples W a.reciprocal a'.reciprocal Alike := by
  have hp := ofProduct_couples (.cons (.num .one) .nil) (.cons ha .nil)
  cases ha with
  | num hn => exact number_couples (Num.reciprocal_couples hn)
  | _ => exact hp

theorem applyGenerally_couples (op : Arithmetic) (ha : Alike W a a') (hb : Alike W b b') :
    Couples W (applyGenerally op a b) (applyGenerally op a' b') Alike := by
  cases op with
  | add => exact ofSum_couples (.cons ⟨ha, rfl⟩ (.cons ⟨hb, rfl⟩ .nil))
  | subtract => exact ofSum_couples (.cons ⟨ha, rfl⟩ (.cons ⟨hb, rfl⟩ .nil))
  | multiply => exact ofProduct_couples (.cons ha (.cons hb .nil)) .nil
  | divide => exact ofProduct_couples (.cons ha .nil) (.cons hb .nil)
  | power => exact ofPower_couples ha hb

/-- **The operators give alike results on alike operands.** -/
theorem apply_couples (op : Arithmetic) (ha : Alike W a a') (hb : Alike W b b') :
    Couples W (apply op a b) (apply op a' b') Alike := by
  have hgeneral := applyGenerally_couples op ha hb
  cases ha with
  | num ha =>
    cases hb with
    | num hb =>
      cases op with
      | add => exact number_couples (Num.add_couples ha hb)
      | subtract => exact number_couples (Num.subtract_couples ha hb)
      | multiply => exact number_couples (Num.multiply_couples ha hb)
      | divide => exact number_couples (Num.divide_couples ha hb)
      | power => exact Num.toPower_couples ha hb
    | _ => exact hgeneral
  | _ => exact hgeneral

end Expr

end ExactAlgebra
