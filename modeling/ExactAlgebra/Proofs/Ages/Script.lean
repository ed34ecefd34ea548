import ExactAlgebra.Proofs.Ages.Operations
import ExactAlgebra.Proofs.Ages.Parsing
import ExactAlgebra.Proofs.Ages.Values

/-!
# Operations of a script in two runs

An operation that is given alike operands does the same in both runs: it returns alike values, or it
fails with the same fault.

* `Script.Couples`: two operations end alike.  It comes with one rule for every way in which
  operations are put together.
* `Script.arithmetic_couples`, `Script.evaluate_couples`: the operations that take several values.
-/

namespace ExactAlgebra.Script

open ExactAlgebra.Expr

variable {W V : Pairing} {α β : Type}

/-! ## Rules -/

def Fault.ageless : Fault → Fault
  | .build e => .build e.ageless
  | e => e

/-- Both outcomes are results, which are related, as are the supplies that are left, or both are the
same fault but for ages. -/
def AlikeOutcome (W : Pairing) (R : Pairing → α → α → Prop) :
    Except Fault (α × Supply) → Except Fault (α × Supply) → Prop
  | .ok p, .ok p' => ∃ V, W ≤ V ∧ V.Below p.2 p'.2 ∧ R V p.1 p'.1
  | .error e, .error e' => e.ageless = e'.ageless
  | _, _ => False

theorem AlikeOutcome.of_le {R : Pairing → α → α → Prop} {x x' : Except Fault (α × Supply)}
    (h : AlikeOutcome V R x x') (hV : W ≤ V) : AlikeOutcome W R x x' := by
  rcases x with e | p <;> rcases x' with e' | p'
  · exact h
  · exact h
  · exact h
  · obtain ⟨U, hU, hR⟩ := h
    exact ⟨U, hV.trans hU, hR⟩

/-- From supplies above all ages that correspond, the operations end alike. -/
def Couples (W : Pairing) (m m' : Run α) (R : Pairing → α → α → Prop) : Prop :=
  ∀ s s', W.Below s s' → AlikeOutcome W R (m s) (m' s')

theorem run_bind (m : Run α) (f : α → Run β) (s : Supply) :
    (m >>= f) s = match m s with
      | .ok p => f p.1 p.2
      | .error e => .error e := by
  change StateT.bind m f s = _
  simp only [StateT.bind, bind, Except.bind]
  rcases m s with e | p <;> rfl

theorem run_bind_of_ok {m : Run α} {f : α → Run β} {s t : Supply} {a : α}
    (h : m s = .ok (a, t)) : (m >>= f) s = f a t := by rw [run_bind, h]

/-- What returns a result has got one from its first part. -/
theorem run_bind_eq_ok {m : Run α} {f : α → Run β} {s : Supply} {r : β × Supply}
    (h : (m >>= f) s = .ok r) : ∃ a t, m s = .ok (a, t) ∧ f a t = .ok r := by
  rw [run_bind] at h
  rcases hm : m s with e | ⟨a, t⟩
  · rw [hm] at h
    exact nomatch h
  · rw [hm] at h
    exact ⟨a, t, rfl, h⟩

theorem build_eq_ok {m : Build α} {s t : Supply} {a : α} (h : build m s = .ok (a, t)) :
    m s = (.ok a, t) := by
  rw [build] at h
  rcases hm : m s with ⟨e | b, u⟩
  · rw [hm] at h
    exact nomatch h
  · rw [hm] at h
    obtain ⟨rfl, rfl⟩ := Prod.mk.inj (Except.ok.inj h)
    rfl

theorem build_eq_error {m : Build α} {s : Supply} {e : ExactAlgebra.Fault}
    (h : build m s = .error (.build e)) : (m s).1 = .error e := by
  rw [build] at h
  rcases hm : m s with ⟨f | b, u⟩
  · rw [hm] at h
    rw [Fault.build.inj (Except.error.inj h)]
  · rw [hm] at h
    exact nomatch h

namespace Couples

variable {m m' n n' : Run α} {R R' : Pairing → α → α → Prop} {Q : Pairing → β → β → Prop}

theorem pure {a a' : α} (h : R W a a') : Couples W (Pure.pure a) (Pure.pure a') R :=
  fun _ _ hs => ⟨W, le_rfl, hs, h⟩

theorem throw {e e' : Fault} (h : e.ageless = e'.ageless) :
    Couples W (MonadExcept.throw e : Run α) (MonadExcept.throw e') R := fun _ _ _ => h

theorem bind {f f' : α → Run β} (h : Couples W m m' R)
    (hf : ∀ V a a', W ≤ V → R V a a' → Couples V (f a) (f' a') Q) :
    Couples W (m >>= f) (m' >>= f') Q := by
  intro s s' hs
  have hm := h s s' hs
  rw [run_bind, run_bind]
  generalize m s = x, m' s' = x' at hm
  rcases x with e | p <;> rcases x' with e' | p'
  · exact hm
  · exact hm.elim
  · exact hm.elim
  · obtain ⟨V, hV, hbelow, hR⟩ := hm
    exact (hf V _ _ hV hR _ _ hbelow).of_le hV

theorem ite {c c' : Prop} [Decidable c] [Decidable c'] (hc : c ↔ c')
    (h : c → Couples W m m' R) (h' : ¬ c → Couples W n n' R) :
    Couples W (if c then m else n) (if c' then m' else n') R := by
  by_cases hcond : c
  · rw [if_pos hcond, if_pos (hc.mp hcond)]
    exact h hcond
  · rw [if_neg hcond, if_neg (mt hc.mpr hcond)]
    exact h' hcond

/-- Constructions that end alike are operations that do. -/
theorem build {m m' : Build α} (h : Build.Couples W m m' R) :
    Couples W (Script.build m) (Script.build m') R := by
  intro s s' hs
  obtain ⟨V, hV, hbelow, hout⟩ := h s s' hs
  rw [Script.build, Script.build]
  generalize m s = x, m' s' = x' at hbelow hout
  rcases x with ⟨e | a, t⟩ <;> rcases x' with ⟨e' | a', t'⟩
  · exact congrArg Fault.build hout
  · exact hout.elim
  · exact hout.elim
  · exact ⟨V, hV, hbelow, hout⟩

theorem require {e e' : Fault} (he : e.ageless = e'.ageless) {x x' : Option α}
    (h : Option.Rel (R W) x x') : Couples W (Script.require e x) (Script.require e' x') R := by
  cases h with
  | none => exact .throw he
  | some h => exact .pure h

/-- What is the same in both runs is the same when it is required. -/
theorem require_same (e : Fault) (x : Option α) :
    Couples W (Script.require e x) (Script.require e x) fun _ => Eq := by
  cases x with
  | none => exact .throw rfl
  | some a => exact .pure rfl

theorem mapM {f f' : β → Run α} {l l' : List β} (hl : List.Forall₂ (Q W) l l')
    (hQ : ∀ {W V : Pairing} {b b'}, W ≤ V → Q W b b' → Q V b b')
    (hR : ∀ {W V : Pairing} {a a'}, W ≤ V → R W a a' → R V a a')
    (h : ∀ V b b', Q V b b' → Couples V (f b) (f' b') R) :
    Couples W (l.mapM f) (l'.mapM f') fun V => List.Forall₂ (R V) := by
  induction l generalizing W l' with
  | nil => cases hl; exact .pure .nil
  | cons b l ih =>
    cases hl with
    | cons hb hl =>
      rw [List.mapM_cons, List.mapM_cons]
      exact (h W _ _ hb).bind fun _ _ _ hV ha => (ih (hl.imp fun _ _ => hQ hV)).bind
        fun _ _ _ hU has => .pure (.cons (hR hU ha) has)

end Couples

/-! ## Operands -/

variable {v v' w w' : Value}

/-- Constructions of alike expressions, as values. -/
theorem expr_couples {m m' : Build Expr} (h : Build.Couples W m m' Expr.Alike) :
    Couples W (do return .expr (← build m)) (do return .expr (← build m')) Value.Alike :=
  (Couples.build h).bind fun _ _ _ _ he => .pure (.expr he)

/-- Constructions of alike numbers, as values. -/
theorem ofNum_couples {m m' : Build Num} (h : Build.Couples W m m' Num.Alike) :
    Couples W (do return .ofNum (← build m)) (do return .ofNum (← build m')) Value.Alike :=
  (Couples.build h).bind fun _ _ _ _ hn => .pure (.expr (.num hn))

theorem promote?_couples (h : v.Alike W v') :
    Option.Rel (fun m m' => Build.Couples W m m' Expr.Alike) v.promote? v'.promote? := by
  have hnumber (q : Rat) : Build.Couples W (do return Expr.num (← Num.ofFraction q.num q.den))
      (do return Expr.num (← Num.ofFraction q.num q.den)) Expr.Alike :=
    number_couples (Num.ofFraction_couples _ _)
  cases h with
  | expr he => exact .some (.pure he)
  | int n => exact .some (hnumber n)
  | fraction q => exact .some (hnumber q)
  | bool b => exact .some (hnumber _)
  | _ => exact .none

/-- A plain exact number becomes a number in lowest terms. -/
theorem promote_of_number? {q : ℚ} (h : v.number? = some q) :
    promote v = build do return .num (← Num.new (.ofRat q)) := by
  cases v with
  | expr e => exact nomatch h
  | _ =>
    rw [promote, Value.promote?, h, Option.map_some, Num.ofFraction_num_den]
    exact nofun

theorem promote_couples (h : v.Alike W v') : Couples W (promote v) (promote v') Expr.Alike := by
  have hv := promote?_couples h
  unfold promote
  generalize v.promote? = x, v'.promote? = x' at hv
  cases hv with
  | none => exact .throw rfl
  | some h => exact .build h

/-- A promoted operand and what is made of it. -/
theorem promote_bind_couples {f f' : Expr → Build Expr} (h : v.Alike W v')
    (hf : ∀ V e e', W ≤ V → Expr.Alike V e e' → Build.Couples V (f e) (f' e') Expr.Alike) :
    Couples W (do return .expr (← build (f (← promote v))))
      (do return .expr (← build (f' (← promote v')))) Value.Alike :=
  (promote_couples h).bind fun V e e' hV he => expr_couples (hf V e e' hV he)

/-! ## Plain numbers -/

theorem ofQuotient_couples (q : Rat) :
    Couples W (ofQuotient q) (ofQuotient q) Value.Alike :=
  (Couples.require_same _ _).bind fun _ _ _ _ h => by
    subst h
    exact .pure (.binary _)

theorem inexactPower_couples (a b : Rat) :
    Couples W (inexactPower a b) (inexactPower a b) Value.Alike :=
  (Couples.require_same _ _).bind fun _ _ _ _ h => (Couples.require_same _ _).bind
    fun _ _ _ _ h' => by
      subst h h'
      exact .ite .rfl (fun _ => .pure (.binary _)) fun _ => .throw rfl

theorem plainPower_couples (fraction : Bool) (a b : Rat) :
    Couples W (plainPower fraction a b) (plainPower fraction a b) Value.Alike := by
  refine .ite .rfl (fun _ => .ite .rfl (fun _ => .throw rfl) fun _ => .pure ?_) fun _ =>
    .ite .rfl (fun _ => .throw rfl) fun _ => .ite .rfl (fun _ => .throw rfl) fun _ =>
      inexactPower_couples a b
  split
  · exact .fraction _
  · exact .int _

theorem plainArithmetic_couples (op : Arithmetic) (hv : v.isFraction = v'.isFraction)
    (hw : w.isFraction = w'.isFraction) (p q : Rat) :
    Couples W (plainArithmetic op v w p q) (plainArithmetic op v' w' p q) Value.Alike := by
  have hexact (r : Rat) : (if v'.isFraction || w'.isFraction then Value.fraction r
      else Value.int r.num).Alike W
        (if v'.isFraction || w'.isFraction then Value.fraction r else Value.int r.num) := by
    split
    · exact .fraction r
    · exact .int r.num
  unfold plainArithmetic
  rw [hv, hw]
  cases op with
  | add => exact .pure (hexact _)
  | subtract => exact .pure (hexact _)
  | multiply => exact .pure (hexact _)
  | divide =>
    exact .ite .rfl (fun _ => .throw rfl) fun _ => .ite .rfl (fun _ => .pure (.fraction _))
      fun _ => ofQuotient_couples _
  | power => exact plainPower_couples _ p q

theorem plain_alike (h : v.Alike W v') (q : Rat) : (plain v q).Alike W (plain v' q) := by
  cases h with
  | fraction _ => exact .fraction q
  | _ => exact .int _

theorem toInteger_couples (h : v.Alike W v') :
    Couples W (toInteger v) (toInteger v') fun _ => Eq := by
  have hrational (x : Option Rat) : Couples W (do return truncate (← require .operandKind x))
      (do return truncate (← require .operandKind x)) fun _ => Eq :=
    (Couples.require_same _ _).bind fun _ _ _ _ h => .pure (congrArg truncate h)
  have hr := h.rational?_eq
  cases h with
  | text s => exact Couples.require_same _ _
  | binary bits =>
    exact (Couples.require_same _ _).bind fun _ _ _ _ h => .pure (congrArg truncate h)
  | expr he =>
    rw [toInteger, toInteger, hr]
    · exact hrational _
    · exact nofun
    · exact nofun
    · exact nofun
    · exact nofun
  | _ => exact hrational _

theorem toBinary_couples (h : v.Alike W v') :
    Couples W (toBinary v) (toBinary v') Value.Alike := by
  have hbinary (e : Fault) (x : Option Nat) : Couples W (do return .binary (← require e x))
      (do return .binary (← require e x)) Value.Alike :=
    (Couples.require_same _ _).bind fun _ _ _ _ h => by
      subst h
      exact .pure (.binary _)
  have hrational (x : Option Rat) : Couples W (do ofQuotient (← require .operandKind x))
      (do ofQuotient (← require .operandKind x)) Value.Alike :=
    (Couples.require_same _ _).bind fun _ _ _ _ h => by
      subst h
      exact ofQuotient_couples _
  have hr := h.rational?_eq
  cases h with
  | text s => exact hbinary _ _
  | binary bits => exact .pure (.binary bits)
  | int n => exact hbinary _ _
  | bool b => exact hbinary _ _
  | expr he =>
    change Couples W (do ofQuotient (← require .operandKind _))
      (do ofQuotient (← require .operandKind _)) Value.Alike
    rw [hr]
    exact hrational _
  | _ => exact hrational _

/-! ## Operations on several values -/

theorem signedTerm_couples {p p' : Value × Option Int} (h : p.1.Alike W p'.1 ∧ p.2 = p'.2) :
    Couples W (signedTerm p) (signedTerm p') AlikeTerm := by
  obtain ⟨v, size⟩ := p
  obtain ⟨v', size'⟩ := p'
  obtain ⟨hv, rfl⟩ := h
  have hterm (sign : Sign) : Couples W (do return (← promote v, sign))
      (do return (← promote v', sign)) AlikeTerm :=
    (promote_couples hv).bind fun _ _ _ _ he => .pure ⟨he, rfl⟩
  cases size with
  | some size => cases hv <;> exact hterm _
  | none =>
    cases hv with
    | tuple hs =>
      cases hs with
      | nil => exact .throw rfl
      | cons hv hs =>
        cases hs with
        | nil => exact .throw rfl
        | cons hw hs =>
          cases hs with
          | cons _ hs => exact .throw (by simp [hs.length_eq])
          | nil =>
            refine (promote_couples hv).bind fun _ _ _ _ he => ?_
            rw [hw.rational?_eq]
            exact (Couples.require_same _ _).bind fun _ _ _ hV h =>
              .pure ⟨he.mono hV, by rw [h]⟩
    | _ => exact hterm .plus

theorem promoteWhile_couples {vs vs' : List Value} (h : List.Forall₂ (Value.Alike W) vs vs') :
    Couples W (promoteWhile vs) (promoteWhile vs') fun V p p' =>
      List.Forall₂ (Expr.Alike V) p.1 p'.1 ∧ p.2 = p'.2 := by
  induction vs generalizing W vs' with
  | nil => cases h; exact .pure ⟨.nil, rfl⟩
  | cons v vs ih =>
    cases h with
    | cons hv hs =>
      have hp := promote?_couples hv
      rw [promoteWhile, promoteWhile]
      generalize v.promote? = x at hp ⊢
      rename_i v' vs'
      generalize v'.promote? = x' at hp ⊢
      cases hp with
      | none => exact .pure ⟨.nil, rfl⟩
      | some hm =>
        exact (Couples.build hm).bind fun _ _ _ hV he =>
          (ih (Value.items_mono hV hs)).bind fun _ _ _ hU hp =>
            .pure ⟨.cons (he.mono hU) hp.1, hp.2⟩

theorem product_couples {factors factors' divisors divisors' : List Value}
    (hf : List.Forall₂ (Value.Alike W) factors factors')
    (hx : List.Forall₂ (Value.Alike W) divisors divisors') :
    Couples W (product factors divisors) (product factors' divisors') Expr.Alike := by
  refine (promoteWhile_couples hf).bind fun V p p' hV hp => ?_
  obtain ⟨numerators, stopped⟩ := p
  obtain ⟨numerators', stopped'⟩ := p'
  obtain ⟨hn, rfl⟩ := hp
  have hrest (U : Pairing) (p p' : List Expr × Bool) (hU : V ≤ U)
      (hp : List.Forall₂ (Expr.Alike U) p.1 p'.1 ∧ p.2 = p'.2) :
      Couples U
        (if p.2 then do
          let _ ← build (ProductDraft.empty.absorbAll (sumAt (depthOf (numerators ++ p.1)))
            numerators p.1)
          throw .operandKind
        else build (ofProduct numerators p.1))
        (if p'.2 then do
          let _ ← build (ProductDraft.empty.absorbAll (sumAt (depthOf (numerators' ++ p'.1)))
            numerators' p'.1)
          throw .operandKind
        else build (ofProduct numerators' p'.1)) Expr.Alike := by
    have hn : List.Forall₂ (Expr.Alike U) numerators numerators' := hn.imp fun _ _ => .mono hU
    refine .ite (by rw [hp.2]) (fun _ => ?_) fun _ => .build (ofProduct_couples hn hp.1)
    rw [depthOf_eq (List.rel_append hn hp.1)]
    exact (Couples.build (ProductDraft.absorbAll_couples (sumAt_couples _) .empty hn hp.1)).bind
      fun _ _ _ _ _ => .throw rfl
  cases stopped with
  | true => exact (Couples.pure (R := fun V p p' =>
      List.Forall₂ (Expr.Alike V) p.1 p'.1 ∧ p.2 = p'.2) ⟨.nil, rfl⟩).bind hrest
  | false => exact (promoteWhile_couples (Value.items_mono hV hx)).bind hrest

theorem quotientOf_couples {args args' : List Value} (h : List.Forall₂ (Value.Alike W) args args') :
    Couples W (quotientOf args) (quotientOf args') fun _ => Eq := by
  have hargs : Couples W (args.mapM fun v => require .operandKind v.integer?)
      (args'.mapM fun v => require .operandKind v.integer?) fun _ => List.Forall₂ Eq :=
    .mapM h Value.Alike.mono (fun _ h => h) fun V v v' hv => by
      rw [hv.integer?_eq]
      exact .require_same _ _
  refine hargs.bind fun _ _ _ _ h => ?_
  rw [List.forall₂_eq_eq_eq] at h
  subst h
  split
  · exact .pure rfl
  · exact .pure rfl
  · exact .pure rfl
  · exact .throw rfl

/-- A fraction is raised by its own rules. -/
theorem fraction_couples (op : Arithmetic) (p : Rat) {e e' : Expr} (he : Expr.Alike W e e')
    (h : Couples W (do return .expr (← build ((← promote (.fraction p)).apply op e)))
      (do return .expr (← build ((← promote (.fraction p)).apply op e'))) Value.Alike) :
    Couples W (arithmetic op (.fraction p) (.expr e)) (arithmetic op (.fraction p) (.expr e'))
      Value.Alike := by
  cases op with
  | power =>
    cases he with
    | num hn =>
      simp only [arithmetic, hn.1]
      exact plainPower_couples true p _
    | _ => exact .throw rfl
  | _ => exact h

theorem arithmetic_couples (op : Arithmetic) (hv : v.Alike W v') (hw : w.Alike W w') :
    Couples W (arithmetic op v w) (arithmetic op v' w') Value.Alike := by
  have hv' := hv
  cases hv with
  | expr he =>
    exact promote_bind_couples hw fun _ _ _ hV hf => apply_couples op (he.mono hV) hf
  | _ =>
    cases hw with
    | expr hf =>
      have hpromoted := promote_bind_couples hv' fun _ _ _ hV he => apply_couples op he (hf.mono hV)
      first
        | exact hpromoted
        | exact fraction_couples op _ hf hpromoted
    | _ =>
      -- Two exact numbers are combined, and no other plain values.
      first
        | exact .throw rfl
        | exact plainArithmetic_couples op rfl rfl _ _

theorem boundValue_couples (h : v.Alike W v') :
    Couples W (boundValue v) (boundValue v') Expr.Alike := by
  have hp := promote_couples h
  cases h with
  | text source => exact .build (parse_couples _ source)
  | _ => exact hp

def AlikePairs (W : Pairing) : Pairs Value → Pairs Value → Prop :=
  List.Forall₂ fun p p' => p.1 = p'.1 ∧ p.2.Alike W p'.2

theorem AlikePairs.mono {pairs pairs' : Pairs Value} (hV : W ≤ V) (h : AlikePairs W pairs pairs') :
    AlikePairs V pairs pairs' := List.Forall₂.imp (fun _ _ h => ⟨h.1, h.2.mono hV⟩) h

theorem bindings_couples {pairs pairs' : Pairs Value} (h : AlikePairs W pairs pairs')
    {bound bound' : Bindings} (hbound : AlikeBindings W bound bound') :
    Couples W (bindings pairs bound) (bindings pairs' bound') AlikeBindings := by
  induction pairs generalizing W pairs' bound bound' with
  | nil => cases h; exact .pure hbound
  | cons p pairs ih =>
    obtain ⟨name, v⟩ := p
    cases h with
    | @cons _ p' _ pairs' hp hs =>
      obtain ⟨name', v'⟩ := p'
      obtain ⟨rfl, hv⟩ := hp
      have hvalue := hbound.value name
      refine .ite ?_ (fun _ => ih hs hbound) fun _ => (boundValue_couples hv).bind
        fun _ _ _ hV he => ih (AlikePairs.mono hV hs)
          (List.rel_append (hbound.mono hV) (.cons ⟨rfl, he⟩ .nil))
      generalize bound.value? name = x, bound'.value? name = x' at hvalue
      cases hvalue with
      | none => exact .rfl
      | some _ => exact .rfl

theorem overwriting_alike {pairs pairs' : Pairs Value} (h : AlikePairs W pairs pairs') :
    AlikePairs W (overwriting pairs) (overwriting pairs') := by
  refine List.rel_foldl (P := fun l l' : Ledger String Value => l.Related Eq (Value.Alike W) l')
    (fun l l' hl p p' hp => ?_) .empty h
  exact hl.put (fun _ _ _ _ h h' => by rw [h, h']) hp.1 hp.2

theorem evaluate_couples {e e' : Expr} (he : Expr.Alike W e e')
    {pairs pairs' values values' : Pairs Value} (hp : AlikePairs W pairs pairs')
    (overwrite : Bool) (hv : AlikePairs W values values') :
    Couples W (Script.evaluate e pairs overwrite values)
      (Script.evaluate e' pairs' overwrite values') Expr.Alike := by
  have hpairs : AlikePairs W (if overwrite then overwriting pairs else pairs)
      (if overwrite then overwriting pairs' else pairs') := by
    split
    · exact overwriting_alike hp
    · exact hp
  exact (bindings_couples (List.rel_append hpairs (overwriting_alike hv)) .nil).bind
    fun _ _ _ hV hbound => .build (Expr.evaluate_couples hbound (he.mono hV))

end ExactAlgebra.Script
