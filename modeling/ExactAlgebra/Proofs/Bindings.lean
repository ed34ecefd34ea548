import ExactAlgebra.Proofs.Ages.Script
import ExactAlgebra.Proofs.Ledger

/-!
# Values for variables

An evaluation is given pairs of names and values, or a table of them, and then named values.  They
are read as one list, in which the first value of each name counts.

* `Script.firsts`: the first pair of each name.
* `Script.convert`: what the values of some pairs become.  `Script.bindings_eq`: nothing but the
  first pairs is converted.
* `Script.Arguments`: what an evaluation is given.  `Script.Arguments.evaluate_eq`: what is done
  with it.
-/

namespace ExactAlgebra

open ExactAlgebra.Expr

namespace Script

/-! ## First pairs -/

section Firsts

variable {α : Type}

/-- The first pair of each name, in order. -/
def firsts : Pairs α → Pairs α
  | [] => []
  | p :: pairs => p :: (firsts pairs).filter (·.1 != p.1)

theorem firsts_sublist (pairs : Pairs α) : (firsts pairs).Sublist pairs := by
  induction pairs with
  | nil => exact .slnil
  | cons p pairs ih => exact (List.filter_sublist.trans ih).cons_cons p

/-- No name comes twice. -/
theorem firsts_nodup (pairs : Pairs α) : ((firsts pairs).map Prod.fst).Nodup := by
  induction pairs with
  | nil => exact .nil
  | cons p pairs ih =>
    rw [firsts, List.map_cons, List.nodup_cons]
    refine ⟨fun h => ?_, ih.sublist (List.filter_sublist.map _)⟩
    obtain ⟨q, hq, hname⟩ := List.mem_map.mp h
    simp [hname] at hq

/-- The first value of a name is that of its first pair. -/
theorem lookup_firsts (pairs : Pairs α) (name : String) :
    lookup (firsts pairs) name = lookup pairs name := by
  induction pairs with
  | nil => rfl
  | cons p pairs ih =>
    by_cases h : p.1 = name
    · simp [lookup, firsts, h]
    · have hrest :
          lookup ((firsts pairs).filter (·.1 != p.1)) name = lookup (firsts pairs) name := by
        rw [lookup, lookup, List.find?_filter]
        congr 2
        funext q
        by_cases hq : q.1 = name <;> simp [hq, Ne.symm h]
      simpa [lookup, firsts, h] using hrest.trans ih

/-- After some pairs, the first pairs are those of names that have not come yet. -/
theorem firsts_append (pairs others : Pairs α) : firsts (pairs ++ others) =
    firsts pairs ++ (firsts others).filter (·.1 ∉ pairs.map Prod.fst) := by
  induction pairs with
  | nil => simp [firsts]
  | cons p pairs ih =>
    rw [List.cons_append, firsts, ih, List.filter_append, List.filter_filter, firsts,
      List.cons_append]
    congr 2
    refine List.filter_congr fun q _ => ?_
    rw [Bool.eq_iff_iff]
    simp

/-- A pair whose name has come before is none of the first ones. -/
theorem firsts_shadowed {before : Pairs α} {p : String × α} (after : Pairs α)
    (h : p.1 ∈ before.map Prod.fst) : firsts (before ++ p :: after) = firsts (before ++ after) := by
  rw [firsts_append, firsts_append, firsts, List.filter_cons_of_neg (by simpa using h),
    List.filter_filter]
  congr 1
  refine List.filter_congr fun q _ => ?_
  by_cases hq : q.1 = p.1
  · simpa [hq] using h
  · simp [hq]

end Firsts

/-! ## Conversion -/

theorem boundValue_of_number? {v : Value} {q : ℚ} (h : v.number? = some q) :
    boundValue v = build do return .num (← Num.new (.ofRat q)) := by
  rw [← promote_of_number? h]
  cases v with
  | text source => exact nomatch h
  | _ => rfl

/-- The values of some pairs as expressions, one after the other. -/
def convert (pairs : Pairs Value) : Run Bindings :=
  pairs.mapM fun p => do return (p.1, ← boundValue p.2)

theorem convert_cons (p : String × Value) (pairs : Pairs Value) :
    convert (p :: pairs) = do
      let e ← boundValue p.2
      return (p.1, e) :: (← convert pairs) := by
  rw [convert, List.mapM_cons]
  simp only [bind_assoc, pure_bind]
  rfl

theorem value?_append_singleton (bound : Bindings) (name : String) (e : Expr) (other : String) :
    (Bindings.value? (bound ++ [(name, e)]) other).isNone =
      ((bound.value? other).isNone && other != name) := by
  simp only [Bindings.value?, List.find?_append]
  cases bound.find? (·.1 == other) with
  | some p => rfl
  | none =>
    rw [Bool.eq_iff_iff]
    simp [eq_comm (a := name)]

/-- **Nothing but the first pairs of names that are not yet bound is converted.** -/
theorem bindings_eq (pairs : Pairs Value) (bound : Bindings) :
    bindings pairs bound = do
      return bound ++ (← convert ((firsts pairs).filter fun p => (bound.value? p.1).isNone)) := by
  induction pairs generalizing bound with
  | nil => simp [bindings, firsts, convert]
  | cons p pairs ih =>
    obtain ⟨name, v⟩ := p
    rw [bindings, firsts]
    by_cases h : (bound.value? name).isSome = true
    · have hsame : ((firsts pairs).filter (·.1 != name)).filter
          (fun p => (bound.value? p.1).isNone) =
          (firsts pairs).filter fun p => (bound.value? p.1).isNone := by
        rw [List.filter_filter]
        refine List.filter_congr fun q _ => ?_
        by_cases hq : q.1 = name
        · simp [hq, h]
        · simp [hq]
      have hbound : ¬ (bound.value? name).isNone = true := by
        simpa [Option.isSome_iff_ne_none] using h
      rw [if_pos h, List.filter_cons, if_neg hbound, hsame, ih]
    · have hnone : (bound.value? name).isNone = true := by simpa using h
      rw [if_neg h, List.filter_cons, if_pos hnone, convert_cons, List.filter_filter]
      simp only [ih, bind_assoc, pure_bind, value?_append_singleton, List.append_assoc,
        List.singleton_append]

theorem convert_append (before after : Pairs Value) :
    convert (before ++ after) = do
      let bound ← convert before
      return bound ++ (← convert after) := by
  rw [convert, List.mapM_append]
  rfl

def ConvertsTo (v : Value) (e : Expr) : Prop := ∃ s t, boundValue v s = .ok (e, t)

/-- The converted values stand at the names of their pairs. -/
theorem convert_ok {pairs : Pairs Value} {s t : Supply} {bound : Bindings}
    (h : convert pairs s = .ok (bound, t)) :
    List.Forall₂ (fun p b => p.1 = b.1 ∧ ConvertsTo p.2 b.2) pairs bound := by
  induction pairs generalizing s t bound with
  | nil =>
    obtain ⟨rfl, -⟩ := Prod.mk.inj (Except.ok.inj h)
    exact .nil
  | cons p pairs ih =>
    rw [convert_cons] at h
    obtain ⟨e, u, hv, h⟩ := run_bind_eq_ok h
    obtain ⟨rest, w, hrest, h⟩ := run_bind_eq_ok h
    obtain ⟨rfl, -⟩ := Prod.mk.inj (Except.ok.inj h)
    exact .cons ⟨rfl, s, u, hv⟩ (ih hrest)

/-- All values are converted, or a first one is not. -/
theorem convert_cases (pairs : Pairs Value) (s : Supply) :
    (∃ bound t, convert pairs s = .ok (bound, t)) ∨
      ∃ before p after bound t f, pairs = before ++ p :: after ∧
        convert before s = .ok (bound, t) ∧ boundValue p.2 t = .error f := by
  induction pairs generalizing s with
  | nil => exact .inl ⟨[], s, rfl⟩
  | cons p pairs ih =>
    rcases hv : boundValue p.2 s with f | ⟨e, u⟩
    · exact .inr ⟨[], p, pairs, [], s, f, rfl, rfl, hv⟩
    · have hcons {pairs : Pairs Value} {bound : Bindings} {t : Supply}
          (h : convert pairs u = .ok (bound, t)) :
          convert (p :: pairs) s = .ok ((p.1, e) :: bound, t) := by
        rw [convert_cons, run_bind_of_ok hv, run_bind_of_ok h]
        rfl
      obtain ⟨bound, t, h⟩ | ⟨before, q, after, bound, t, f, rfl, h, hq⟩ := ih u
      · exact .inl ⟨_, t, hcons h⟩
      · exact .inr ⟨p :: before, q, after, _, t, f, rfl, hcons h, hq⟩

/-- Related pairs have related values. -/
theorem lookup_rel {α β : Type} {R : α → β → Prop} {pairs : Pairs α} {others : Pairs β}
    (h : List.Forall₂ (fun p q => p.1 = q.1 ∧ R p.2 q.2) pairs others) (name : String) :
    Option.Rel R (lookup pairs name) (lookup others name) := by
  induction h with
  | nil => exact .none
  | cons hp _ ih =>
    simp only [lookup, List.find?_cons, hp.1] at ih ⊢
    split
    · exact .some hp.2
    · exact ih

/-! ## Arguments -/

/-- What an evaluation is given: pairs or a table, and named values.  No name comes twice in a table
or among the named values. -/
structure Arguments where
  pairs : Pairs Value
  isTable : Bool
  named : Pairs Value
  table_nodup : isTable = true → (pairs.map Prod.fst).Nodup
  named_nodup : (named.map Prod.fst).Nodup

/-- Names that are new are put at the end of a table, in order. -/
theorem entries_foldl_put {pairs : Pairs Value} {l : Ledger String Value}
    (h : (l.keys ++ pairs.map Prod.fst).Nodup) :
    (pairs.foldl (fun table (name, v) => table.put name v) l).entries = l.entries ++ pairs := by
  induction pairs generalizing l with
  | nil => simp
  | cons p pairs ih =>
    obtain ⟨name, v⟩ := p
    have hnew : l.get? name = none := by
      rw [Ledger.get?, Option.map_eq_none_iff, List.find?_eq_none]
      intro q hq hname
      rw [List.nodup_append] at h
      exact h.2.2 q.1 (List.mem_map_of_mem hq) name (by simp) (by simpa using hname)
    have hentries : (l.put name v).entries = l.entries ++ [(name, v)] :=
      (Ledger.get?_eq_none hnew).2.1 v
    rw [List.foldl_cons, ih, hentries, List.append_assoc, List.singleton_append]
    simpa [Ledger.keys, hentries] using h

/-- A table of different names is as it is written. -/
theorem overwriting_of_nodup {pairs : Pairs Value} (h : (pairs.map Prod.fst).Nodup) :
    overwriting pairs = pairs := entries_foldl_put (l := .empty) (by simpa using h)

namespace Arguments

/-- All pairs, in the order in which they count. -/
def all (a : Arguments) : Pairs Value := a.pairs ++ a.named

def evaluate (a : Arguments) (e : Expr) : Run Expr := Script.evaluate e a.pairs a.isTable a.named

variable (a : Arguments) (e : Expr)

/-- **The first pairs are converted, in order, and then the expression is evaluated.** -/
theorem evaluate_eq :
    a.evaluate e = (do build (e.evaluate (← convert (firsts a.all)))) := by
  have hpairs : (if a.isTable then overwriting a.pairs else a.pairs) = a.pairs := by
    split
    · exact overwriting_of_nodup (a.table_nodup ‹_›)
    · rfl
  have hfilter : (firsts a.all).filter (fun p => (Bindings.value? [] p.1).isNone) = firsts a.all :=
    List.filter_eq_self.mpr fun _ _ => rfl
  rw [evaluate, Script.evaluate, hpairs, overwriting_of_nodup a.named_nodup, bindings_eq, ← all,
    hfilter]
  simp only [List.nil_append, bind_pure]

variable {a e}

/-- If the first values can all be converted, the expression is evaluated with what they become. -/
theorem evaluate_of_convert {s t : Supply} {bound : Bindings}
    (h : convert (firsts a.all) s = .ok (bound, t)) :
    a.evaluate e s = build (e.evaluate bound) t := by rw [evaluate_eq, run_bind_of_ok h]

/-- The first value that cannot be converted is reported. -/
theorem evaluate_of_illegal {before after : Pairs Value} {p : String × Value}
    (hfirsts : firsts a.all = before ++ p :: after) {s t : Supply} {bound : Bindings} {f : Fault}
    (hbefore : convert before s = .ok (bound, t)) (hp : boundValue p.2 t = .error f) :
    a.evaluate e s = .error f := by
  have hconvert : convert (firsts a.all) s = .error f := by
    rw [hfirsts, convert_append, run_bind_of_ok hbefore, convert_cons]
    simp only [run_bind, hp]
  rw [evaluate_eq, run_bind, hconvert]

end Arguments

end Script

end ExactAlgebra
