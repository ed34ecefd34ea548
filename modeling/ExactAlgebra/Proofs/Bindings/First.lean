import ExactAlgebra.Proofs.Bindings
import ExactAlgebra.Proofs.Meaning.Worth
import ExactAlgebra.Proofs.Order.Session

/-!
# The first value of each name

What is bound to a name again, and what is bound to variables that do not occur, has no effect.  For
the latter, two evaluations are compared: a value for a variable that does not occur may still be a
new node, but what both evaluations build is in the same order.

* `Script.Exact`, `Script.SameInput`: values that are expressions or exact numbers, and values that
  cannot be told apart.
* `Script.alike_of_known`: what a session has obtained is alike itself.
* `Script.Arguments.evaluate_same`: evaluations with the same values for the variables that occur.
* `Script.first_values_count`: the first values count, and nothing else does.
-/

namespace ExactAlgebra

open ExactAlgebra.Expr

namespace Script

/-! ## Values that cannot be told apart -/

/-- A node that has been obtained, or an exact number. -/
def Exact (es : List Expr) (v : Value) : Prop :=
  (∃ e ∈ es, v = .expr e) ∨ v.rational?.isSome = true

/-- The same node, or the same number. -/
def SameInput (v v' : Value) : Prop :=
  (∃ e, v = .expr e ∧ v' = .expr e) ∨ ∃ q, v.rational? = some q ∧ v'.rational? = some q

/-- The expression is the value, or a number for which the value stands. -/
def Stands (v : Value) (e : Expr) : Prop :=
  v = .expr e ∨ ∃ n, e = .num n ∧ v.number? = some n.value

theorem Stands.rational? {v : Value} {e : Expr} (h : Stands v e) {q : ℚ}
    (hq : v.rational? = some q) : ∃ n, e = .num n ∧ n.value = q := by
  rcases h with rfl | ⟨n, rfl, hn⟩
  · cases e with
    | num n => exact ⟨n, rfl, Option.some.inj hq⟩
    | _ => exact nomatch hq
  · cases v with
    | expr e => exact nomatch hn
    | _ => exact ⟨n, rfl, Option.some.inj (hn.symm.trans hq)⟩

/-- An exact value is converted to what it is or stands for. -/
theorem boundValue_exact {es : List Expr} {v : Value} (h : Exact es v) {s : Supply}
    (hs : s.Ascending) : ∃ e t, boundValue v s = .ok (e, t) ∧ s.Precedes t ∧ Stands v e := by
  have hsucc : s.Precedes { s with next := s.next + 1 } := ⟨hs, hs.monotone (Nat.le_succ _)⟩
  cases v with
  | expr e => exact ⟨e, s, rfl, ⟨hs, le_rfl⟩, .inl rfl⟩
  | int _ | fraction _ | bool _ =>
    refine ⟨_, _, congrFun (boundValue_of_number? rfl) s, hsucc, .inr ⟨_, rfl, ?_⟩⟩
    rw [Num.value_mk, Ratio.toRat_ofRat]
    rfl
  | _ =>
    obtain ⟨e, -, he⟩ | hr := h
    · exact nomatch he
    · exact nomatch hr

theorem convert_exact {es : List Expr} {pairs : Pairs Value} (h : ∀ p ∈ pairs, Exact es p.2)
    {s : Supply} (hs : s.Ascending) : ∃ bound t, convert pairs s = .ok (bound, t) ∧ s.Precedes t ∧
      List.Forall₂ (fun p b => p.1 = b.1 ∧ Exact es p.2 ∧ Stands p.2 b.2) pairs bound := by
  induction pairs generalizing s with
  | nil => exact ⟨[], s, rfl, ⟨hs, le_rfl⟩, .nil⟩
  | cons p pairs ih =>
    rw [List.forall_mem_cons] at h
    obtain ⟨e, t, hv, ht, he⟩ := boundValue_exact h.1 hs
    obtain ⟨bound, u, hrest, hu, hb⟩ := ih h.2 ht.1
    refine ⟨(p.1, e) :: bound, u, ?_, ⟨hu.1, ht.2.trans hu.2⟩, .cons ⟨rfl, h.1, he⟩ hb⟩
    rw [convert_cons, run_bind_of_ok hv, run_bind_of_ok hrest]
    rfl

/-- A known node is alike itself, as all its ages are below those that are still to come. -/
theorem alike_of_known {R : Registry} {s : Supply} (hR : R.Below s) (hs : s.Valid) {e : Expr}
    (he : e ∈ R.nodes) : Alike (.upTo false (s.label s.next) hs.2) e e := by
  have hnum (n : Num) : n.Alike (.upTo false (s.label s.next) hs.2) n := ⟨rfl, nofun⟩
  induction e with
  | num n => exact .num (hnum n)
  | var name => exact .var name
  | power age b x ihb ihx =>
    exact .power ⟨rfl, hR.lt he rfl⟩ (ihb (Registry.power_base he))
      (ihx (Registry.power_exponent he))
  | product age c factors ih =>
    cases R.canonical he with
    | product _ _ _ _ form =>
      refine .product ⟨rfl, hR.lt he rfl⟩ (hnum c) (List.forall₂_same.mpr fun p hp => ?_)
      exact .mk (form.base_not_num p hp) (form.exponent_ne_zero p hp)
        ((ih p hp).1 (Registry.base he hp)) ((ih p hp).2 (Registry.exponent he hp))
  | sum age c summands ih =>
    cases R.canonical he with
    | sum _ _ _ _ form =>
      refine .sum ⟨rfl, hR.lt he rfl⟩ (hnum c) (List.forall₂_same.mpr fun p hp => ?_)
      exact .mk (form.term_not_num p hp) (ih p hp (Registry.term he hp)) (hnum p.2)

/-- What stands for values that cannot be told apart is alike. -/
theorem SameInput.alike {es : List Expr} {R : Registry} (hes : ∀ e ∈ es, e ∈ R.nodes) {s : Supply}
    (hR : R.Below s) (hs : s.Valid) {v v' : Value} (h : SameInput v v') (hv : Exact es v)
    {e e' : Expr} (he : Stands v e) (he' : Stands v' e') :
    Alike (.upTo false (s.label s.next) hs.2) e e' := by
  rcases h with ⟨x, rfl, rfl⟩ | ⟨q, hq, hq'⟩
  · obtain h | ⟨_, _, h⟩ := he
    · obtain h' | ⟨_, _, h'⟩ := he'
      · obtain rfl := Value.expr.inj h
        obtain rfl := Value.expr.inj h'
        refine alike_of_known hR hs ?_
        obtain ⟨y, hy, hxy⟩ | hr := hv
        · rw [Value.expr.inj hxy]
          exact hes y hy
        · obtain ⟨q, hq⟩ := Option.isSome_iff_exists.mp hr
          obtain ⟨n, rfl, -⟩ := Stands.rational? (.inl rfl) hq
          exact R.leaf rfl
      · exact nomatch h'
    · exact nomatch h
  · obtain ⟨n, rfl, hn⟩ := he.rational? hq
    obtain ⟨n', rfl, hn'⟩ := he'.rational? hq'
    exact .num ⟨hn.trans hn'.symm, nofun⟩

/-- Both outcomes are equal expressions, or both are the same fault but for ages. -/
def SameOutcome : Except Fault (Expr × Supply) → Except Fault (Expr × Supply) → Prop
  | .ok p, .ok p' => (p.1 == p'.1) = true
  | .error f, .error f' => f.ageless = f'.ageless
  | _, _ => False

theorem SameOutcome.of_alike {W : Pairing} {x x' : Except Fault (Expr × Supply)}
    (h : AlikeOutcome W Alike x x') : SameOutcome x x' := by
  rcases x with f | p <;> rcases x' with f' | p'
  · exact h
  · exact h
  · exact h
  · obtain ⟨V, -, -, halike⟩ := h
    exact halike.beq

namespace Arguments

/-- **Nothing but the first values of the variables that occur matters.** -/
theorem evaluate_same {σ : Supply} {es : List Expr} (hsession : Session σ es) (hσ : σ.Valid)
    {e : Expr} (he : e ∈ es) {a a' : Arguments} (ha : ∀ p ∈ a.all, Exact es p.2)
    (ha' : ∀ p ∈ a'.all, Exact es p.2)
    (hsame : ∀ name ∈ e.names, Option.Rel SameInput (lookup a.all name) (lookup a'.all name))
    {t t' : Supply} (ht : σ.Precedes t) (ht' : σ.Precedes t') :
    SameOutcome (a.evaluate e t) (a'.evaluate e t') := by
  obtain ⟨R, hR, hes⟩ := hsession.registered
  have hexact : ∀ p ∈ firsts a.all, Exact es p.2 := fun p hp => ha p ((firsts_sublist _).mem hp)
  have hexact' : ∀ p ∈ firsts a'.all, Exact es p.2 := fun p hp => ha' p ((firsts_sublist _).mem hp)
  obtain ⟨bound, u, hconvert, hu, hb⟩ := convert_exact hexact ht.1
  obtain ⟨bound', u', hconvert', hu', hb'⟩ := convert_exact hexact' ht'.1
  have hbelow : (Pairing.upTo false (σ.label σ.next) hσ.2).Below u u' := by
    refine ⟨hu.1, hu'.1, ?_⟩
    rintro i i' ⟨rfl, hi⟩
    exact ⟨hi.trans_le (ht.2.trans hu.2), hi.trans_le (ht'.2.trans hu'.2)⟩
  -- Variables that do not occur may be taken to have no values.
  have hvalue : AlikeValue (.upTo false (σ.label σ.next) hσ.2)
      (fun name => if name ∈ e.names then bound.value? name else none)
      (fun name => if name ∈ e.names then bound'.value? name else none) := by
    intro name
    dsimp only
    split
    next hname =>
      have hrel := hsame name hname
      have hv := lookup_rel (R := fun v x => Exact es v ∧ Stands v x) hb name
      have hv' := lookup_rel (R := fun v x => Exact es v ∧ Stands v x) hb' name
      rw [lookup_firsts] at hv hv'
      change Option.Rel _ (lookup bound name) (lookup bound' name)
      generalize lookup a.all name = v, lookup a'.all name = v', lookup bound name = x,
        lookup bound' name = x' at *
      cases hrel with
      | none => cases hv; cases hv'; exact .none
      | some hsame =>
        cases hv with | some hv => cases hv' with | some hv' =>
        exact .some (hsame.alike hes hR hσ hv.1 hv.2 hv'.2)
    next => exact .none
  have heval : e.evaluate bound =
      e.substitute fun name => if name ∈ e.names then bound.value? name else none :=
    substitute_congr fun name hname => (if_pos hname).symm
  have heval' : e.evaluate bound' =
      e.substitute fun name => if name ∈ e.names then bound'.value? name else none :=
    substitute_congr fun name hname => (if_pos hname).symm
  rw [evaluate_of_convert hconvert, evaluate_of_convert hconvert', heval, heval']
  exact .of_alike (Couples.build (substitute_couples hvalue (alike_of_known hR hσ (hes e he)))
    u u' hbelow)

end Arguments

/-- **Of several values for a name the first counts, and no other one has any effect.**  There is
one first pair for each name.  These pairs are converted in order: if all of them can be, the
expression is evaluated with what they become, and else the first one that cannot be is reported.  A
pair whose name has come before may have any value, or be left out.  If all values are nodes that a
session has obtained or exact numbers, then only the first values of variables that occur matter. -/
theorem first_values_count (a : Arguments) (e : Expr) :
    (∀ name, lookup (firsts a.all) name = lookup a.all name) ∧
      ((firsts a.all).map Prod.fst).Nodup ∧ (firsts a.all).Sublist a.all ∧
      (∀ s, (∃ bound t, convert (firsts a.all) s = .ok (bound, t) ∧
          (∀ name, Option.Rel ConvertsTo (lookup a.all name) (bound.value? name)) ∧
          a.evaluate e s = build (e.evaluate bound) t) ∨
        ∃ before p after bound t f, firsts a.all = before ++ p :: after ∧
          convert before s = .ok (bound, t) ∧ boundValue p.2 t = .error f ∧
          a.evaluate e s = .error f) ∧
      (∀ (a' : Arguments) before p after, a.all = before ++ p :: after →
        p.1 ∈ before.map Prod.fst →
        (a'.all = before ++ after ∨ ∃ v, a'.all = before ++ (p.1, v) :: after) →
        a'.evaluate e = a.evaluate e) ∧
      ∀ (a' : Arguments) σ es, Session σ es → σ.Valid → e ∈ es →
        (∀ p ∈ a.all, Exact es p.2) → (∀ p ∈ a'.all, Exact es p.2) →
        (∀ name ∈ e.names, Option.Rel SameInput (lookup a.all name) (lookup a'.all name)) →
        ∀ t t', σ.Precedes t → σ.Precedes t' → SameOutcome (a.evaluate e t) (a'.evaluate e t') := by
  refine ⟨lookup_firsts _, firsts_nodup _, firsts_sublist _, fun s => ?_, ?_, ?_⟩
  · obtain ⟨bound, t, h⟩ | ⟨before, p, after, bound, t, f, hfirsts, hbefore, hp⟩ :=
      convert_cases (firsts a.all) s
    · refine .inl ⟨bound, t, h, fun name => ?_, Arguments.evaluate_of_convert h⟩
      rw [← lookup_firsts]
      exact lookup_rel (convert_ok h) name
    · exact .inr ⟨before, p, after, bound, t, f, hfirsts, hbefore, hp,
        Arguments.evaluate_of_illegal hfirsts hbefore hp⟩
  · intro a' before p after hall hp hall'
    have hfirsts : firsts a'.all = firsts a.all := by
      obtain h | ⟨v, h⟩ := hall'
      · rw [h, hall, firsts_shadowed after hp]
      · rw [h, hall, firsts_shadowed after hp]
        exact firsts_shadowed after hp
    rw [Arguments.evaluate_eq, Arguments.evaluate_eq, hfirsts]
  · intro a' σ es hsession hσ he ha ha' hsame t t' ht ht'
    exact Arguments.evaluate_same hsession hσ he ha ha' hsame ht ht'

/-- The expression of `2x+y`. -/
def linear : Expr := .sum 12 .zero [(.var "x", ⟨2, 10⟩), (.var "y", ⟨1, 11⟩)]

theorem parse_linear : parse defaultLimit "2x+y" .initial =
    (.ok linear, ⟨13, id, true⟩) := by cbv

/-- Two values for `x` and, by name, one for `y`. -/
def twice : Arguments := ⟨[("x", .int 3), ("x", .int 5)], false, [("y", .int 0)], nofun, by decide⟩

/-- The same with a text for the second value of `x` that cannot be evaluated. -/
def twiceUndefined : Arguments :=
  ⟨[("x", .int 3), ("x", .text "1/0")], false, [("y", .int 0)], nofun, by decide⟩

/-- A table with a value for a variable that does not occur, and another value for `x` by name. -/
def table : Arguments :=
  ⟨[("z", .expr linear), ("y", .fraction 0), ("x", .expr (.num ⟨3, 20⟩))], true,
    [("x", .bool true)], by decide, by decide⟩

/-- In `2x+y` neither an undefined second value for `x` has an effect nor what else is bound. -/
theorem first_values_count_linear :
    twiceUndefined.evaluate linear = twice.evaluate linear ∧
      SameOutcome (twice.evaluate linear ⟨13, id, true⟩)
        (table.evaluate linear ⟨40, id, true⟩) := by
  obtain ⟨-, -, -, -, hshadowed, hsame⟩ := first_values_count twice linear
  have hsession := Session.step (.start Supply.valid_initial.1) (.parse defaultLimit "2x+y")
  rw [parse_linear] at hsession
  refine ⟨hshadowed twiceUndefined [("x", .int 3)] ("x", .int 5) [("y", .int 0)] rfl (by decide)
    (.inr ⟨.text "1/0", rfl⟩), ?_⟩
  refine hsame table _ _ hsession ⟨strictMono_id, by decide⟩ List.mem_cons_self ?_ ?_ ?_ _ _
    ⟨strictMono_id, le_rfl⟩ ⟨strictMono_id, by decide⟩
  · intro p hp
    simp only [Arguments.all, twice, List.cons_append, List.nil_append, List.mem_cons,
      List.not_mem_nil, or_false] at hp
    rcases hp with rfl | rfl | rfl <;> exact .inr rfl
  · intro p hp
    simp only [Arguments.all, table, List.cons_append, List.nil_append, List.mem_cons,
      List.not_mem_nil, or_false] at hp
    rcases hp with rfl | rfl | rfl | rfl
    · exact .inl ⟨linear, List.mem_cons_self, rfl⟩
    all_goals exact .inr rfl
  · intro name hname
    have hnames : linear.names = ["x", "y"] := by cbv
    rw [hnames, List.mem_cons, List.mem_singleton] at hname
    rcases hname with rfl | rfl
    · exact .some (.inr ⟨3, by cbv, by cbv⟩)
    · exact .some (.inr ⟨0, by cbv, by cbv⟩)

end Script

end ExactAlgebra
