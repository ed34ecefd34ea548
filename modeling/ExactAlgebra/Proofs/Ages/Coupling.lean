import ExactAlgebra.Expr.Canonical
import ExactAlgebra.Proofs.Ages
import ExactAlgebra.Proofs.Ledger.Related
import ExactAlgebra.Proofs.Outcome

/-!
# Coupled constructions

Two constructions are coupled if from any two supplies, both above all ages that correspond so far,
they end alike: both return what corresponds, or both fail with the same fault.  What they have
built corresponds, too, so that the pairing grows on the way, and what corresponded before still
does.

* `Supply.Valid`, `Supply.Precedes`: supplies of ages that are still to come.
* `Pairing.Below`: two supplies are above all ages that correspond.
* `Build.Couples`: from any such supplies two constructions end alike.  It comes with one rule for
  every way in which constructions are put together.
* `ofPower_couples`, `separate_couples`, `Ledger.post_couples`: what products and sums are made
  with.
-/

namespace ExactAlgebra

variable {W V : Pairing}

/-! ## Supplies and faults -/

def Supply.Ascending (s : Supply) : Prop := StrictMono s.label

/-- The supply hands out ascending ages that are above those of the constants. -/
def Supply.Valid (s : Supply) : Prop := s.Ascending ∧ Num.constants ≤ s.label s.next

/-- Whatever the first supply has handed out is below what the second one will. -/
def Supply.Precedes (s t : Supply) : Prop := t.Ascending ∧ s.label s.next ≤ t.label t.next

theorem Supply.Precedes.valid {s t : Supply} (h : s.Precedes t) (hs : s.Valid) : t.Valid :=
  ⟨h.1, hs.2.trans h.2⟩

theorem Supply.valid_initial : Supply.initial.Valid := ⟨strictMono_id, le_rfl⟩

/-- All ages that correspond are below those that the supplies hand out, in ascending order. -/
structure Pairing.Below (W : Pairing) (s s' : Supply) : Prop where
  left : s.Ascending
  right : s'.Ascending
  lt {a a' : Nat} : W.pairs a a' → a < s.label s.next ∧ a' < s'.label s'.next

namespace Pairing.Below

variable {s s' t : Supply}

theorem valid (h : W.Below s s') : s'.Valid :=
  ⟨h.right, Nat.succ_le_of_lt (h.lt (W.constant (Nat.lt_succ_self 4))).2⟩

theorem valid_left (h : W.Below s s') : s.Valid :=
  ⟨h.left, Nat.succ_le_of_lt (h.lt (W.constant (Nat.lt_succ_self 4))).1⟩

theorem precedes (h : W.Below s s') (ht : s'.Precedes t) : W.Below s t :=
  ⟨h.left, ht.1, fun ha => ⟨(h.lt ha).1, (h.lt ha).2.trans_le ht.2⟩⟩

theorem precedes_left (h : W.Below s s') (ht : s.Precedes t) : W.Below t s' :=
  ⟨ht.1, h.right, fun ha => ⟨(h.lt ha).1.trans_le ht.2, (h.lt ha).2⟩⟩

end Pairing.Below

theorem Pairing.below_constants (b : Bool) {s s' : Supply} (hs : s.Valid) (hs' : s'.Valid) :
    (Pairing.constants b).Below s s' := by
  refine ⟨hs.1, hs'.1, ?_⟩
  rintro a a' ⟨rfl, ha⟩
  exact ⟨ha.trans_le hs.2, ha.trans_le hs'.2⟩

def Fault.ageless : Fault → Fault
  | .missingEntry key => .missingEntry key.ageless
  | e => e

namespace Build

variable {α β γ : Type}

/-- Both outcomes are results, which are related, or both are the same fault but for ages. -/
def AlikeOutcome (R : α → α → Prop) : Except Fault α → Except Fault α → Prop
  | .ok a, .ok a' => R a a'
  | .error e, .error e' => e.ageless = e'.ageless
  | _, _ => False

/-- From supplies above all ages that correspond, the constructions end alike. -/
def Couples (W : Pairing) (m m' : Build α) (R : Pairing → α → α → Prop) : Prop :=
  ∀ s s', W.Below s s' →
    ∃ V, W ≤ V ∧ V.Below (m s).2 (m' s').2 ∧ AlikeOutcome (R V) (m s).1 (m' s').1

namespace Couples

variable {m m' : Build α} {R R' : Pairing → α → α → Prop} {Q : Pairing → β → β → Prop}

theorem pure {a a' : α} (h : R W a a') : Couples W (Pure.pure a) (Pure.pure a') R :=
  fun _ _ hs => ⟨W, le_rfl, hs, h⟩

theorem throw {e e' : Fault} (h : e.ageless = e'.ageless) :
    Couples W (MonadExcept.throw e : Build α) (MonadExcept.throw e') R :=
  fun _ _ hs => ⟨W, le_rfl, hs, h⟩

theorem bind {f f' : α → Build β} (h : Couples W m m' R)
    (hf : ∀ V a a', W ≤ V → R V a a' → Couples V (f a) (f' a') Q) :
    Couples W (m >>= f) (m' >>= f') Q := by
  intro s s' hs
  obtain ⟨V, hV, hbelow, hout⟩ := h s s' hs
  rw [run_bind, run_bind]
  rcases hm : m s with ⟨e | a, t⟩ <;> rcases hm' : m' s' with ⟨e' | a', t'⟩ <;>
    rw [hm, hm'] at hout hbelow
  · exact ⟨V, hV, hbelow, hout⟩
  · exact hout.elim
  · exact hout.elim
  · obtain ⟨U, hU, hbelow, hout⟩ := hf V a a' hV hout t t' hbelow
    exact ⟨U, hV.trans hU, hbelow, hout⟩

/-- If the second construction returns a result then so does the first. -/
theorem returns (h : Couples W m m' R) {s s' t' : Supply} (hs : W.Below s s') {a' : α}
    (hm' : m' s' = (.ok a', t')) :
    ∃ V a t, W ≤ V ∧ V.Below t t' ∧ m s = (.ok a, t) ∧ R V a a' := by
  obtain ⟨V, hV, hbelow, hout⟩ := h s s' hs
  rw [hm'] at hbelow hout
  rcases hm : m s with ⟨e | a, t⟩ <;> rw [hm] at hbelow hout
  · exact hout.elim
  · exact ⟨V, a, t, hV, hbelow, rfl, hout⟩

/-- A construction that is coupled with itself leaves a later supply. -/
theorem precedes (h : ∀ W, Couples W m m R) {s : Supply} (hs : s.Valid) : s.Precedes (m s).2 := by
  have hbelow : (Pairing.upTo true (s.label s.next) hs.2).Below s s := by
    refine ⟨hs.1, hs.1, ?_⟩
    rintro a a' ⟨rfl, ha⟩
    exact ⟨ha, ha⟩
  obtain ⟨V, hV, hbelow, -⟩ := h _ s s hbelow
  refine ⟨hbelow.right, not_lt.mp fun hlt => ?_⟩
  exact lt_irrefl _ (hbelow.lt (hV.2 _ _ ⟨rfl, hlt⟩)).1

/-- New nodes correspond. -/
theorem fresh : Couples W Build.fresh Build.fresh fun V a a' => V.pairs a a' := by
  intro s s' hs
  have hnext : s.label s.next < s.label (s.next + 1) := hs.left (Nat.lt_succ_self _)
  have hnext' : s'.label s'.next < s'.label (s'.next + 1) := hs.right (Nat.lt_succ_self _)
  refine ⟨W.insert (s.label s.next) (s'.label s'.next) fun _ _ => hs.lt, Pairing.le_insert,
    ⟨hs.left, hs.right, ?_⟩, .inr ⟨rfl, rfl⟩⟩
  rintro a a' (ha | ⟨rfl, rfl⟩)
  · exact ⟨(hs.lt ha).1.trans hnext, (hs.lt ha).2.trans hnext'⟩
  · exact ⟨hnext, hnext'⟩

theorem observe (c c' : Bool) : Couples W (Build.observe c) (Build.observe c') fun _ _ _ => True :=
  fun _ _ hs => ⟨W, le_rfl, ⟨hs.left, hs.right, hs.lt⟩, trivial⟩

theorem ite {c c' : Prop} [Decidable c] [Decidable c'] {n n' : Build α} (hc : c ↔ c')
    (h : c → Couples W m m' R) (h' : ¬ c → Couples W n n' R) :
    Couples W (if c then m else n) (if c' then m' else n') R := by
  by_cases hcond : c
  · rw [if_pos hcond, if_pos (hc.mp hcond)]
    exact h hcond
  · rw [if_neg hcond, if_neg (mt hc.mpr hcond)]
    exact h' hcond

/-- Folds are coupled if their steps are. -/
theorem foldlM {f f' : β → γ → Build β} {P : Pairing → γ → γ → Prop} {l l' : List γ} {b b' : β}
    (hl : List.Forall₂ (P W) l l') (hP : ∀ {W V : Pairing} {c c'}, W ≤ V → P W c c' → P V c c')
    (hb : Q W b b') (h : ∀ V b b' c c', W ≤ V → Q V b b' → P V c c' →
      Couples V (f b c) (f' b' c') Q) :
    Couples W (l.foldlM f b) (l'.foldlM f' b') Q := by
  induction l generalizing W l' b b' with
  | nil => cases hl; exact .pure hb
  | cons c l ih =>
    cases hl with
    | cons hc hl =>
      rw [List.foldlM_cons, List.foldlM_cons]
      exact (h W b b' _ _ le_rfl hb hc).bind fun V b b' hV hb =>
        ih (hl.imp fun _ _ => hP hV) hb fun U b b' c c' hU => h U b b' c c' (hV.trans hU)

end Couples

end Build

open Build ExactAlgebra.Expr

/-! ## Numbers -/

namespace Num

variable {n n' m m' : Num}

theorem Alike.isZero_eq (h : n.Alike W n') : n.isZero = n'.isZero := isZero_congr h.1

theorem Alike.isOne_eq (h : n.Alike W n') : n.isOne = n'.isOne := isOne_congr h.1

theorem Alike.of_constant (h : n.age < Num.constants) : n.Alike W n :=
  ⟨rfl, fun _ => W.constant h⟩

theorem Alike.zero : Num.zero.Alike W .zero := .of_constant (Nat.zero_lt_succ 4)

theorem Alike.one : Num.one.Alike W .one := .of_constant (Nat.succ_lt_succ (Nat.zero_lt_succ 3))

theorem Alike.ofSign (sign : Sign) : sign.toNum.Alike W sign.toNum := by
  cases sign with
  | plus => exact .one
  | minus => exact .of_constant (Nat.lt_succ_self 4)

theorem Alike.toRatio_eq (h : n.Alike W n') : n.toRatio = n'.toRatio := Num.toRatio_eq h.1

theorem new_couples {r r' : Ratio} (h : r = r') : Couples W (new r) (new r') Num.Alike :=
  Couples.fresh.bind fun _ _ _ _ ha => .pure ⟨congrArg Ratio.toRat h, fun _ => ha⟩

theorem ofFraction_couples (p q : ℤ) : Couples W (ofFraction p q) (ofFraction p q) Num.Alike := by
  unfold ofFraction
  split
  · exact .throw rfl
  · exact new_couples rfl

theorem add_couples (hn : n.Alike W n') (hm : m.Alike W m') :
    Couples W (n.add m) (n'.add m') Num.Alike :=
  new_couples (by rw [hn.toRatio_eq, hm.toRatio_eq])

theorem subtract_couples (hn : n.Alike W n') (hm : m.Alike W m') :
    Couples W (n.subtract m) (n'.subtract m') Num.Alike :=
  new_couples (by rw [hn.toRatio_eq, hm.toRatio_eq])

theorem multiply_couples (hn : n.Alike W n') (hm : m.Alike W m') :
    Couples W (n.multiply m) (n'.multiply m') Num.Alike :=
  new_couples (by rw [hn.toRatio_eq, hm.toRatio_eq])

theorem negate_couples (hn : n.Alike W n') : Couples W n.negate n'.negate Num.Alike :=
  new_couples (by rw [hn.toRatio_eq])

theorem divide_couples (hn : n.Alike W n') (hm : m.Alike W m') :
    Couples W (n.divide m) (n'.divide m') Num.Alike := by
  rw [divide_eq, divide_eq]
  exact .ite (by rw [hm.isZero_eq]) (fun _ => .throw (by rw [hn.1])) fun _ =>
    new_couples (by rw [hn.1, hm.1])

theorem reciprocal_couples (hn : n.Alike W n') :
    Couples W n.reciprocal n'.reciprocal Num.Alike := by
  rw [reciprocal_eq, reciprocal_eq]
  exact .ite (by rw [hn.isZero_eq]) (fun _ => .throw rfl) fun _ => new_couples (by rw [hn.1])

theorem integerPower_couples (hn : n.Alike W n') (hm : m.Alike W m') :
    Couples W (n.integerPower m) (n'.integerPower m') Num.Alike := by
  have hnew {V : Pairing} : Couples V (new (.ofRat (n.value ^ m.value.num)))
      (new (.ofRat (n'.value ^ m'.value.num))) Num.Alike := new_couples (by rw [hn.1, hm.1])
  refine .ite (by rw [isNegative_eq, isNegative_eq, hm.1]) (fun _ => ?_) fun _ => hnew
  exact Couples.fresh.bind fun _ _ _ _ _ => Couples.fresh.bind fun _ _ _ _ _ => hnew

theorem toPower_couples (hn : n.Alike W n') (hm : m.Alike W m') :
    Couples W (n.toPower m) (n'.toPower m') Expr.Alike := by
  rw [toPower_eq, toPower_eq]
  refine .ite (by rw [hn.isOne_eq]) (fun _ => .pure (.num .one)) fun _ =>
    .ite (by rw [hn.isZero_eq]) (fun _ => .ite (by rw [hm.1]) (fun _ => .pure (.num .zero))
      fun _ => .throw (by rw [hn.1, hm.1])) fun _ =>
    .ite (by rw [isInteger_congr hm.1]) (fun _ => ?_) fun _ => ?_
  · exact (integerPower_couples hn hm).bind fun _ _ _ _ h => .pure (.num h)
  · exact Couples.fresh.bind fun _ _ _ hV ha =>
      .pure (.power ha (.num (hn.mono hV)) (.num (hm.mono hV)))

end Num

/-! ## Powers -/

namespace Expr

variable {b b' e e' : Expr}

theorem Alike.isNum_eq (h : Alike W e e') : e.isNum = e'.isNum := isNum_congr h.beq

theorem Alike.isZero_eq (h : Alike W e e') : e.isZero = e'.isZero := isZero_congr h.beq

theorem Alike.isOne_eq (h : Alike W e e') : e.isOne = e'.isOne := isOne_congr h.beq

theorem AlikeKey.mono {k k' : Expr} (hV : W ≤ V) (h : AlikeKey W k k') : AlikeKey V k k' :=
  ⟨h.1, h.2.mono hV⟩

theorem AlikeExponent.mono (hV : W ≤ V) (h : AlikeExponent W e e') : AlikeExponent V e e' :=
  ⟨h.1, h.2.mono hV⟩

theorem AlikeFactor.mono {p p' : Expr × Expr} (hV : W ≤ V) (h : AlikeFactor W p p') :
    AlikeFactor V p p' := by
  rw [alikeFactor_iff] at h ⊢
  exact ⟨h.1.mono hV, h.2.mono hV⟩

theorem AlikeSummand.mono {p p' : Expr × Num} (hV : W ≤ V) (h : AlikeSummand W p p') :
    AlikeSummand V p p' := by
  rw [alikeSummand_iff] at h ⊢
  exact ⟨h.1.mono hV, h.2.mono hV⟩

theorem number_couples {m m' : Build Num} (h : Couples W m m' Num.Alike) :
    Couples W (do return .num (← m)) (do return .num (← m')) Alike :=
  h.bind fun _ _ _ _ h => .pure (.num h)

theorem power_couples (hb : Alike W b b') (he : Alike W e e') :
    Couples W (do return .power (← Build.fresh) b e) (do return .power (← Build.fresh) b' e')
      Alike :=
  Couples.fresh.bind fun _ _ _ hV ha => .pure (.power ha (hb.mono hV) (he.mono hV))

theorem ofPower_couples (hb : Alike W b b') (he : Alike W e e') :
    Couples W (ofPower b e) (ofPower b' e') Alike := by
  rcases b.num_or with ⟨n, rfl⟩ | hn
  · cases hb with
    | num hn =>
      rcases e.num_or with ⟨m, rfl⟩ | hm
      · cases he with
        | num hm => exact Num.toPower_couples hn hm
      · rw [ofPower_num _ hm, ofPower_num _ (he.isNum_eq ▸ hm)]
        exact .ite (by rw [hn.isOne_eq]) (fun _ => .pure (.num .one)) fun _ =>
          power_couples (.num hn) he
  · rw [ofPower_symbolic hn, ofPower_symbolic (hb.isNum_eq ▸ hn)]
    exact .ite (by rw [he.isZero_eq]) (fun _ => .pure (.num .one)) fun _ =>
      .ite (by rw [he.isOne_eq]) (fun _ => .pure hb) fun _ => power_couples hb he

/-- A power of a key with an exponent other than zero is a key. -/
theorem ofPower_key_couples (hb : AlikeKey W b b') (he : AlikeExponent W e e') :
    Couples W (ofPower b e) (ofPower b' e') AlikeKey := by
  rw [ofPower_symbolic hb.1, ofPower_symbolic (hb.2.isNum_eq ▸ hb.1)]
  refine .ite (by rw [he.2.isZero_eq]) (fun hz => ?_) fun _ =>
    .ite (by rw [he.2.isOne_eq]) (fun _ => .pure hb) fun _ =>
      Couples.fresh.bind fun _ _ _ hV ha =>
        .pure ⟨rfl, .power ha (hb.2.mono hV) (he.2.mono hV)⟩
  rw [he.1] at hz
  exact nomatch hz

theorem separate_couples {age age' : Nat} {c c' : Num} {factors factors' : List (Expr × Expr)}
    (ha : W.pairs age age') (hc : c.Alike W c')
    (hf : List.Forall₂ (AlikeFactor W) factors factors') :
    Couples W (separate age c factors) (separate age' c' factors')
      fun V p p' => p.1.Alike V p'.1 ∧ AlikeKey V p.2 p'.2 := by
  have hmany : Couples W
      (if c.isOne then return (.one, .product age c factors)
        else do return (c, .product (← Build.fresh) .one factors))
      (if c'.isOne then return (.one, .product age' c' factors')
        else do return (c', .product (← Build.fresh) .one factors'))
      fun V p p' => p.1.Alike V p'.1 ∧ AlikeKey V p.2 p'.2 :=
    .ite (by rw [hc.isOne_eq]) (fun _ => .pure ⟨.one, rfl, .product ha hc hf⟩) fun _ =>
      Couples.fresh.bind fun _ _ _ hV ha => .pure
        ⟨hc.mono hV, rfl, .product ha .one (hf.imp fun _ _ => AlikeFactor.mono hV)⟩
  cases hf with
  | nil => exact hmany
  | cons hp hl =>
    cases hl with
    | nil =>
      obtain ⟨hb, he⟩ := alikeFactor_iff.mp hp
      exact (ofPower_key_couples hb he).bind fun _ _ _ hV h => .pure ⟨hc.mono hV, h⟩
    | cons hq hl => exact hmany

theorem AlikeKey.beq_eq {a a' b b' : Expr} (ha : AlikeKey W a a') (hb : AlikeKey W b b') :
    (a == b) = (a' == b') := ha.2.beq_eq hb.2

end Expr

/-! ## Ledgers -/

/-- Posting to alike ledgers, if combining alike amounts gives alike ones or such that vanish. -/
theorem Ledger.post_couples {ν : Type} {rule : Rule Build ν} {A S : Pairing → ν → ν → Prop}
    {l l' : Ledger Expr ν} {k k' : Expr} {v v' : ν} (hl : l.Related (AlikeKey W) (S W) l')
    (hmono : ∀ {W V : Pairing} {v v'}, W ≤ V → S W v v' → S V v v')
    (hk : AlikeKey W k k') (hstart : A W rule.start rule.start) (hSA : ∀ v v', S W v v' → A W v v')
    (hvanish : ∀ V v v', A V v v' → rule.vanishes v = rule.vanishes v' ∧
      (rule.vanishes v = false → S V v v'))
    (hcombine : ∀ old old', A W old old' →
      Couples W (rule.combine old v) (rule.combine old' v') A) :
    Couples W (l.post rule k v) (l'.post rule k' v')
      fun V l l' => l.Related (AlikeKey V) (S V) l' := by
  have hold : A W ((l.get? k).getD rule.start) ((l'.get? k').getD rule.start) := by
    have hget := hl.get? (fun _ _ _ _ => AlikeKey.beq_eq) hk
    generalize l.get? k = old, l'.get? k' = old' at hget
    cases hget with
    | none => exact hstart
    | some h => exact hSA _ _ h
  refine (hcombine _ _ hold).bind fun V v v' hV hv => .pure ?_
  exact (hl.mono (fun _ _ => .mono hV) fun _ _ => hmono hV).store
    (fun _ _ _ _ => AlikeKey.beq_eq) (hk.mono hV) (hvanish V v v' hv).1 (hvanish V v v' hv).2

end ExactAlgebra
