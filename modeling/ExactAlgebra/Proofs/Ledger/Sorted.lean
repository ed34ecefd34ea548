import ExactAlgebra.Ledger.Command
import Mathlib.Data.String.Basic
import Mathlib.Order.Defs.LinearOrder
import Mathlib.Algebra.Order.Ring.Int
import Mathlib.Algebra.Order.Group.Int

/-!
# Sorted entries

Entries that are asked for in an order come in a stable sort: by ascending key, and those with level
keys as they stand in the ledger.

* `Ledger.StableSort`: what a stable sort by a key function is.
* `Ledger.sorted_stable`: the entries are sorted stably by every key function.
* `KeyOrder.sorts`: the orders that a command can ask for are given by key functions.
-/

namespace ExactAlgebra.Ledger

/-- The entries are sorted by a function of their keys, and level entries are left in their
order. -/
structure StableSort {κ ν α : Type} [LinearOrder α] (key : κ → α) (entries sorted : List (κ × ν)) :
    Prop where
  perm : sorted.Perm entries
  ascending : sorted.Pairwise fun p q => key p.1 ≤ key q.1
  level : ∀ a, sorted.filter (fun p => key p.1 = a) = entries.filter fun p => key p.1 = a

section Insertion

variable {κ ν α : Type} [LinearOrder α] {order : κ → κ → Ordering} {key : κ → α}

/-- An entry goes before its equals and behind nothing but what precedes it. -/
theorem filter_insertEntry (horder : ∀ a b, order a b = .lt ↔ key a < key b) (entry : κ × ν)
    (entries : List (κ × ν)) (a : α) :
    (insertEntry order entry entries).filter (fun p => key p.1 = a) =
      (entry :: entries).filter fun p => key p.1 = a := by
  induction entries with
  | nil => rfl
  | cons other entries ih =>
    rw [insertEntry]
    split
    next hlt =>
      have hlt : key other.1 < key entry.1 := (horder _ _).mp (beq_iff_eq.mp hlt)
      rw [List.filter_cons, ih]
      by_cases he : key entry.1 = a
      · have ho : key other.1 ≠ a := (hlt.trans_eq he).ne
        simp [he, ho]
      · simp [he, List.filter_cons]
    next => rfl

theorem insertEntry_pairwise_le (horder : ∀ a b, order a b = .lt ↔ key a < key b) (entry : κ × ν)
    {entries : List (κ × ν)} (h : entries.Pairwise fun p q => key p.1 ≤ key q.1) :
    (insertEntry order entry entries).Pairwise fun p q => key p.1 ≤ key q.1 := by
  induction entries with
  | nil => exact List.pairwise_singleton _ _
  | cons other entries ih =>
    rw [insertEntry]
    rw [List.pairwise_cons] at h
    split
    next hlt =>
      have hlt : key other.1 < key entry.1 := (horder _ _).mp (beq_iff_eq.mp hlt)
      refine List.pairwise_cons.mpr ⟨fun p hp => ?_, ih h.2⟩
      rcases List.mem_cons.mp ((insertEntry_perm order entry entries).mem_iff.mp hp) with rfl | hp
      · exact hlt.le
      · exact h.1 p hp
    next hge =>
      have hle : key entry.1 ≤ key other.1 := not_lt.mp fun hlt =>
        hge (beq_iff_eq.mpr ((horder _ _).mpr hlt))
      refine List.pairwise_cons.mpr ⟨fun p hp => ?_, List.pairwise_cons.mpr h⟩
      rcases List.mem_cons.mp hp with rfl | hp
      · exact hle
      · exact hle.trans (h.1 p hp)

/-- **The entries are sorted stably**, by every function of their keys that gives the order. -/
theorem sorted_stable (horder : ∀ a b, order a b = .lt ↔ key a < key b) (l : Ledger κ ν) :
    StableSort key l.entries (l.sorted order) where
  perm := l.sorted_perm order
  ascending := by
    obtain ⟨entries⟩ := l
    induction entries with
    | nil => exact .nil
    | cons entry entries ih => exact insertEntry_pairwise_le horder entry ih
  level a := by
    obtain ⟨entries⟩ := l
    simp only [sorted]
    induction entries with
    | nil => rfl
    | cons entry entries ih =>
      rw [List.foldr_cons, filter_insertEntry horder, List.filter_cons, ih, List.filter_cons]

end Insertion

/-! ## The orders of a command -/

/-- The code points, each counted downwards. -/
def downwards (key : String) : List ℤ := key.toList.map fun c => -(c.toNat : ℤ)

theorem descending_eq_lt_iff (as bs : List Char) : descending as bs = .lt ↔
    as.map (fun c => -(c.toNat : ℤ)) < bs.map fun c => -(c.toNat : ℤ) := by
  induction as generalizing bs with
  | nil => cases bs <;> simp [descending]
  | cons a as ih =>
    cases bs with
    | nil => simp [descending]
    | cons b bs =>
      have hlt : ∀ c d : Char, c < d ↔ (c.toNat : ℤ) < d.toNat := fun c d => Int.ofNat_lt.symm
      rw [descending, List.map_cons, List.map_cons, List.cons_lt_cons_iff, neg_lt_neg_iff, neg_inj,
        ← ih, ← hlt]
      split
      next hba => simp [hba]
      next hba =>
        split
        next hab => simp [hba, ((hlt a b).mp hab).ne]
        next hab =>
          have he : (a.toNat : ℤ) = b.toNat := by
            rw [hlt] at hab hba
            omega
          simp [hba, he]

/-- The entries are sorted stably in the order: by the key itself, by its length, or by its code
points, each counted downwards. -/
def KeyOrder.Sorts (order : KeyOrder) (entries sorted : List (String × Int)) : Prop :=
  match order with
  | .text => StableSort (fun key => key) entries sorted
  | .length => StableSort String.length entries sorted
  | .reverse => StableSort downwards entries sorted

theorem KeyOrder.sorts (order : KeyOrder) (l : Ledger String Int) :
    order.Sorts l.entries (l.sorted order.compare) := by
  cases order with
  | text => exact sorted_stable (fun a b => compareOfLessAndEq_eq_lt) l
  | length => exact sorted_stable (fun a b => compareOfLessAndEq_eq_lt) l
  | reverse => exact sorted_stable (fun a b => descending_eq_lt_iff a.toList b.toList) l

end ExactAlgebra.Ledger
