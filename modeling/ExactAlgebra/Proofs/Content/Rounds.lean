import Mathlib.Algebra.BigOperators.Group.Finset.Basic

/-!
# Merging in rounds

A draft is merged in rounds.  In each round all keys are merged that are due at its start, and the
merge of a key adds something to what the draft holds, which depends on nothing but the key.  So it
does not matter in which order the keys of a round are merged, and what is held in the end depends
only on what is held at the start.  It also does not matter whether something is added before or
after, as long as it makes no difference to which keys are merged.

* `Merging`: which keys are due, and what merging them adds.
* `Merging.round`, `Lists.round_eq`: what is held after a round, in whatever order it goes.
* `Merging.Flattens`: what is held when no key is due any more.
* `Flattens.unique`: it is determined.  `Flattens.resume`: what leaves the merging `Undisturbed` may
  be added later.
-/

namespace ExactAlgebra

/-- A way to merge what a draft holds. -/
structure Merging (κ C : Type) where
  /-- The keys that are to be merged. -/
  due : C → Finset κ
  /-- What is added when a key is merged. -/
  change : κ → C

namespace Merging

variable {κ C : Type} [AddCommMonoid C] (m : Merging κ C)

def round (c : C) : C := c + ∑ k ∈ m.due c, m.change k

/-- Round by round, merging leads from `c` to `c'`, where no key is due. -/
inductive Flattens : C → C → Prop where
  | done {c : C} (h : m.due c = ∅) : Flattens c c
  | round {c c' : C} (h : m.due c ≠ ∅) (hc : Flattens (m.round c) c') : Flattens c c'

/-- Some rounds lead from `c` to `c'`. -/
inductive Reaches : C → C → Prop where
  | refl (c : C) : Reaches c c
  | round {c c' : C} (hc : Reaches (m.round c) c') : Reaches c c'

/-- In no round of merging `a` does more of `b` make a difference to which keys are merged. -/
def Undisturbed (a b : C) : Prop := ∀ c, m.Reaches a c → m.due c ≠ ∅ → m.due (c + b) = m.due c

/-- Where no key is due, a round changes nothing. -/
theorem Reaches.eq_of_due {m : Merging κ C} {c c' : C} (h : m.Reaches c c') (hc : m.due c = ∅) :
    c' = c := by
  induction h with
  | refl => rfl
  | round _ ih =>
    rw [Merging.round, hc, Finset.sum_empty, add_zero] at ih
    exact ih hc

theorem Undisturbed.of_due {m : Merging κ C} {a : C} (h : m.due a = ∅) (b : C) :
    m.Undisturbed a b := fun _ hreach hne => absurd (hreach.eq_of_due h ▸ h) hne

/-- The list names every key that is due, and each of them once. -/
structure Lists {α : Type} (key : α → κ) (l : List α) (c : C) : Prop where
  nodup : (l.map key).Nodup
  mem_due : ∀ k, k ∈ m.due c ↔ k ∈ l.map key

section Lists

variable {m} {α : Type} {key : α → κ} {l : List α} {c : C}

omit [AddCommMonoid C] in
theorem Lists.due_eq_empty_iff (h : m.Lists key l c) : m.due c = ∅ ↔ l = [] := by
  rw [Finset.eq_empty_iff_forall_notMem, ← List.map_eq_nil_iff (f := key),
    List.eq_nil_iff_forall_not_mem]
  exact forall_congr' fun k => not_congr (h.mem_due k)

/-- In whatever order the keys are listed, a round merges them all. -/
theorem Lists.round_eq (h : m.Lists key l c) :
    m.round c = c + (l.map fun a => m.change (key a)).sum := by
  classical
  have hdue : (l.map key).toFinset = m.due c := by
    ext k
    rw [List.mem_toFinset, h.mem_due]
  rw [round, ← hdue, List.sum_toFinset _ h.nodup, List.map_map]
  rfl

end Lists

namespace Flattens

variable {m} {a a' b c c' : C}

theorem eq_of_due (h : m.Flattens c c') (hc : m.due c = ∅) : c' = c := by
  cases h with
  | done _ => rfl
  | round hne _ => exact absurd hc hne

/-- **What is held in the end is determined.** -/
theorem unique (h : m.Flattens c a) (h' : m.Flattens c b) : a = b := by
  induction h with
  | done hc => exact (h'.eq_of_due hc).symm
  | round hne _ ih =>
    cases h' with
    | done hc => exact absurd hc hne
    | round _ h' => exact ih h'

/-- What leaves the merging undisturbed may be added at the end instead of at the start. -/
theorem resume (h : m.Flattens a a') (hb : m.Undisturbed a b) (hc : m.Flattens (a + b) c) :
    m.Flattens (a' + b) c := by
  induction h with
  | done _ => exact hc
  | @round a a' hne _ ih =>
    have hdue := hb a (.refl a) hne
    cases hc with
    | done h0 => exact absurd (hdue.symm.trans h0) hne
    | round _ hc =>
      rw [Merging.round, hdue, add_right_comm] at hc
      exact ih (fun c hreach => hb c (.round hreach)) hc

/-- What every merge keeps is kept in the end. -/
theorem preserves {P : C → Prop} (hP : ∀ c k, P c → P (c + m.change k)) (h : m.Flattens c c')
    (hc : P c) : P c' := by
  induction h with
  | done _ => exact hc
  | @round c c' _ _ ih =>
    refine ih ?_
    have hmerge : ∀ s : Finset κ, P (c + ∑ k ∈ s, m.change k) := by
      classical
      intro s
      induction s using Finset.induction_on with
      | empty => rwa [Finset.sum_empty, add_zero]
      | insert k s hk ihs =>
        rw [Finset.sum_insert hk, add_comm (m.change k), ← add_assoc]
        exact hP _ _ ihs
    exact hmerge _

end Flattens

end Merging

end ExactAlgebra
