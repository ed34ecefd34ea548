import ExactAlgebra.Proofs.Bindings
import ExactAlgebra.Proofs.Failure
import ExactAlgebra.Proofs.Printed

/-!
# Variables without values

Substitution goes through an expression from left to right, and it goes through all of it: what is
built on the way may be zero, or cancel, but then the variables that come later are still looked up.

* `Build.Visits`: a construction looks up variables in a given order.
* `Expr.substitute_visits`: substitution looks up all variables, in the order in which they occur.
* `Script.Arguments.unbound_variable`: what is reported when a variable has no value.
-/

namespace ExactAlgebra

open ExactAlgebra.Expr

namespace Build

variable {α β : Type} {value : String → Option Expr} {names names' : List String}

def Bound (value : String → Option Expr) (names : List String) : Prop :=
  ∀ name ∈ names, (value name).isSome = true

/-- If the fault is that a variable has no value, then it is the first of these that has none. -/
def FirstUnbound (value : String → Option Expr) (names : List String) (f : Fault) : Prop :=
  ∀ name, f = .unboundVariable name → ∃ before after, names = before ++ name :: after ∧
    value name = none ∧ Bound value before

/-- The construction looks up these variables in order.  It returns nothing unless all of them have
values, and it reports the first one that has none, unless something else is wrong before. -/
def Visits (value : String → Option Expr) (m : Build α) (names : List String) : Prop :=
  m.Ensures (fun _ => Bound value names) (FirstUnbound value names)

theorem FirstUnbound.append {f : Fault} (h : FirstUnbound value names f) :
    FirstUnbound value (names ++ names') f := by
  intro name hf
  obtain ⟨before, after, rfl, hname, hbefore⟩ := h name hf
  exact ⟨before, after ++ names', by simp, hname, hbefore⟩

theorem FirstUnbound.after {f : Fault} (h : FirstUnbound value names' f)
    (hnames : Bound value names) : FirstUnbound value (names ++ names') f := by
  intro name hf
  obtain ⟨before, after, rfl, hname, hbefore⟩ := h name hf
  exact ⟨names ++ before, after, by simp, hname, List.forall_mem_append.mpr ⟨hnames, hbefore⟩⟩

namespace Visits

variable {m : Build α}

/-- What has no fault of its own looks up no variables. -/
theorem of_inherent (h : Inherent m) : Visits value m [] := by
  intro s
  have hs := h s
  split
  · exact List.forall_mem_nil _
  next f hf => exact fun name hname => absurd hname ((hs f hf).2 name)

theorem bind {f : α → Build β} (h : Visits value m names) (hf : ∀ a, Visits value (f a) names') :
    Visits value (m >>= f) (names ++ names') := by
  refine Ensures.bind (h.mono (fun _ => id) fun _ => .append) fun a hnames => ?_
  exact (hf a).mono (fun _ hnames' => List.forall_mem_append.mpr ⟨hnames, hnames'⟩)
    fun _ hunbound => hunbound.after hnames

/-- What follows looks up no variables. -/
theorem bind_inherent {f : α → Build β} (h : Visits value m names) (hf : ∀ a, Inherent (f a)) :
    Visits value (m >>= f) names := by
  have hbind := h.bind fun a => of_inherent (hf a)
  rwa [List.append_nil] at hbind

end Visits

end Build

open Build

/-! ## Substitution -/

namespace Expr

variable {value : String → Option Expr}

theorem factorsWith_visits {power : Expr → Expr → Build Expr} {factors : List (Expr × Expr)}
    (h : ∀ p ∈ factors, Visits value (power p.1 p.2) (p.1.names ++ p.2.names)) :
    Visits value (factorsWith power factors) (factorsNames factors) := by
  induction factors with
  | nil => exact .pure (List.forall_mem_nil _)
  | cons p factors ih =>
    rw [List.forall_mem_cons] at h
    rw [factorsNames]
    exact h.1.bind fun _ => (ih h.2).bind_inherent fun _ => .pure

theorem summandsWith_visits {term : Expr → Build Expr} {summands : List (Expr × Num)}
    (h : ∀ p ∈ summands, Visits value (term p.1) p.1.names) :
    Visits value (summandsWith term summands) (summandsNames summands) := by
  induction summands with
  | nil => exact .pure (List.forall_mem_nil _)
  | cons p summands ih =>
    rw [List.forall_mem_cons] at h
    rw [summandsNames]
    refine h.1.bind fun t => ?_
    -- The product with the coefficient is built between the term and the other entries.
    have hproduct : Visits value (ofProduct [t, .num p.2] []) [] :=
      .of_inherent (ofProduct_inherent _ _)
    exact hproduct.bind fun _ => (ih h.2).bind_inherent fun _ => .pure

/-- **Substitution looks up all variables in the order in which they occur.** -/
theorem substitute_visits (value : String → Option Expr) (e : Expr) :
    Visits value (e.substitute value) e.names := by
  induction e with
  | num n => exact .pure (List.forall_mem_nil _)
  | var name =>
    rw [substitute, names]
    cases hname : value name with
    | some x => exact .pure (by simp [Bound, hname])
    | none =>
      refine .throw fun other hother => ?_
      obtain rfl := Fault.unboundVariable.inj hother
      exact ⟨[], [], rfl, hname, List.forall_mem_nil _⟩
  | power age b e ihb ihe =>
    rw [substitute, names]
    exact ihb.bind fun _ => ihe.bind_inherent fun _ => ofPower_inherent _ _
  | product age c factors ih =>
    rw [substitute, names, substituteFactors_eq]
    refine (factorsWith_visits fun p hp => ?_).bind_inherent fun _ => ofProduct_inherent _ _
    exact (ih p hp).1.bind fun _ => (ih p hp).2.bind_inherent fun _ => ofPower_inherent _ _
  | sum age c summands ih =>
    rw [substitute, names, substituteSummands_eq]
    exact (summandsWith_visits ih).bind_inherent fun _ => ofSum_inherent _

end Expr

/-! ## Evaluation -/

namespace Script

/-- No conversion reports a variable without a value. -/
theorem boundValue_error {v : Value} {s : Supply} {f : Fault} (h : boundValue v s = .error f)
    (name : String) : f ≠ .build (.unboundVariable name) := by
  rintro rfl
  cases v with
  | text source => exact (parse_inherent defaultLimit source s _ (build_eq_error h)).2 name rfl
  | int _ | fraction _ | bool _ =>
    rw [boundValue_of_number? rfl] at h
    exact nomatch h
  | _ => exact nomatch h

namespace Arguments

def Binds (a : Arguments) (name : String) : Prop := name ∈ a.all.map Prod.fst

/-- The names that have values are those of the pairs. -/
theorem binds_iff {a : Arguments} {s t : Supply} {bound : Bindings}
    (h : convert (firsts a.all) s = .ok (bound, t)) (name : String) :
    a.Binds name ↔ (bound.value? name).isSome = true := by
  have hrel := lookup_rel (convert_ok h) name
  rw [lookup_firsts] at hrel
  have hlookup : (lookup a.all name).isSome = true ↔ a.Binds name := by
    simp [lookup, Binds, List.find?_isSome]
  change _ ↔ (lookup bound name).isSome = true
  rw [← hlookup]
  generalize lookup a.all name = v, lookup bound name = x at hrel
  cases hrel <;> rfl

/-- **A result is returned only if all variables have values, and it is the first one without one
that is reported.**  Nothing that cancels or vanishes on the way keeps a variable from being looked
up.  When all variables have values, none is reported. -/
theorem unbound_variable (a : Arguments) (e : Expr) (s : Supply) :
    (∀ r t, a.evaluate e s = .ok (r, t) → ∀ name ∈ e.names, a.Binds name) ∧
      (∀ name, a.evaluate e s = .error (.build (.unboundVariable name)) →
        ∃ before after, e.names = before ++ name :: after ∧ ¬ a.Binds name ∧
          ∀ other ∈ before, a.Binds other) ∧
      ((∀ name ∈ e.names, a.Binds name) →
        ∀ name, a.evaluate e s ≠ .error (.build (.unboundVariable name))) := by
  have hreport : ∀ name, a.evaluate e s = .error (.build (.unboundVariable name)) →
      ∃ before after, e.names = before ++ name :: after ∧ ¬ a.Binds name ∧
        ∀ other ∈ before, a.Binds other := by
    intro name h
    obtain ⟨bound, t, hconvert⟩ | ⟨before, p, after, bound, t, f, hfirsts, hbefore, hp⟩ :=
      convert_cases (firsts a.all) s
    · rw [evaluate_of_convert hconvert] at h
      obtain ⟨before, after, hnames, hname, hbefore⟩ :=
        (substitute_visits bound.value? e).of_error (build_eq_error h) name rfl
      refine ⟨before, after, hnames, ?_, fun other hother => ?_⟩
      · rw [binds_iff hconvert, hname]
        exact Bool.false_ne_true
      · exact (binds_iff hconvert other).mpr (hbefore other hother)
    · rw [evaluate_of_illegal hfirsts hbefore hp] at h
      exact absurd (Except.error.inj h) (boundValue_error hp name)
  refine ⟨fun r t h name hname => ?_, hreport, fun hall name h => ?_⟩
  · rw [evaluate_eq] at h
    obtain ⟨bound, u, hconvert, h⟩ := run_bind_eq_ok h
    exact (binds_iff hconvert name).mpr
      ((substitute_visits bound.value? e).ok (build_eq_ok h) name hname)
  · obtain ⟨before, after, hnames, hname, -⟩ := hreport name h
    exact hname (hall name (by simp [hnames]))

/-- The expression `xy`. -/
def rectangle : Expr := .product 7 .one [(.var "x", .num ⟨1, 5⟩), (.var "y", .num ⟨1, 6⟩)]

/-- Zero for `x`, and nothing for `y`. -/
def width : Arguments := ⟨[("x", .int 0)], true, [], by decide, by decide⟩

/-- A factor that is zero does not keep the other variable from being looked up. -/
theorem unbound_variable_rectangle :
    width.evaluate rectangle ⟨8, id, true⟩ = .error (.build (.unboundVariable "y")) ∧
      ∃ before after, rectangle.names = before ++ "y" :: after ∧ ¬ width.Binds "y" ∧
        ∀ other ∈ before, width.Binds other := by
  have hreported :
      width.evaluate rectangle ⟨8, id, true⟩ = .error (.build (.unboundVariable "y")) := by cbv
  exact ⟨hreported, (unbound_variable width rectangle ⟨8, id, true⟩).2.1 "y" hreported⟩

end Arguments

end Script

end ExactAlgebra
