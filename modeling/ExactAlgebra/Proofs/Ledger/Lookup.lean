import ExactAlgebra.Proofs.Ledger

/-!
# Looking up keys

What is stored at a key is found there and at the keys equal to it, and nowhere else is anything
else found than before.

* `Ledger.contains_eq`: a key is in the ledger if an amount is found there.
* `Ledger.get?_put`, `Ledger.get?_erase`, `Ledger.get?_store`: what is found after an operation.
* `Ledger.keys_store_of_contains`, `Ledger.entries_store_of_not_contains`: where the key then
  stands.
-/

namespace ExactAlgebra.Ledger

variable {κ ν : Type} [BEq κ] {l : Ledger κ ν} {key : κ}

theorem contains_eq (l : Ledger κ ν) (key : κ) : l.contains key = (l.get? key).isSome := by
  rw [contains, get?, Option.isSome_map, Bool.eq_iff_iff, List.any_eq_true, List.find?_isSome]

theorem erase_eq_self (h : l.get? key = none) : l.erase key = l :=
  congrArg Ledger.mk (get?_eq_none h).2.2

section Equivalence

variable [EquivBEq κ]

/-- Equal keys are found alike. -/
theorem get?_congr {a b : κ} (h : (a == b) = true) (l : Ledger κ ν) : l.get? a = l.get? b := by
  simp only [get?, BEq.congr_right h]

theorem get?_put (l : Ledger κ ν) (key k : κ) (amount : ν) :
    (l.put key amount).get? k = if (key == k) = true then some amount else l.get? k := by
  obtain ⟨entries⟩ := l
  simp only [get?, put]
  induction entries with
  | nil => by_cases hk : (key == k) = true <;> simp [putEntry, hk]
  | cons p entries ih =>
    by_cases hp : (p.1 == key) = true
    · rw [putEntry, if_pos hp, List.find?_cons, List.find?_cons, BEq.congr_left hp]
      by_cases hk : (key == k) = true <;> simp [hk]
    · rw [putEntry, if_neg hp, List.find?_cons, List.find?_cons]
      by_cases hpk : (p.1 == k) = true
      · have hk : ¬ (key == k) = true := fun hk => hp (BEq.trans hpk (BEq.symm hk))
        simp [hpk, hk]
      · simp only [hpk]
        exact ih

/-- With distinct keys, a key that is taken out is gone. -/
theorem get?_erase (h : l.Distinct) (key k : κ) :
    (l.erase key).get? k = if (key == k) = true then none else l.get? k := by
  obtain ⟨entries⟩ := l
  rw [Distinct] at h
  simp only [get?, erase]
  induction entries with
  | nil => simp
  | cons p entries ih =>
    rw [List.pairwise_cons] at h
    by_cases hp : (p.1 == key) = true
    · rw [List.eraseP_cons_of_pos (by exact hp), List.find?_cons, BEq.congr_left hp]
      by_cases hk : (key == k) = true
      · -- No later key equals the one that goes.
        have hlater : ∀ q ∈ entries, ¬ (q.1 == k) = true := fun q hq hqk => by
          have hpq : (p.1 == q.1) = true := BEq.trans (BEq.trans hp hk) (BEq.symm hqk)
          rw [h.1 q hq] at hpq
          exact Bool.false_ne_true hpq
        rw [if_pos hk, List.find?_eq_none.mpr hlater, Option.map_none]
      · simp [hk]
    · rw [List.eraseP_cons_of_neg (by exact hp), List.find?_cons, List.find?_cons]
      by_cases hpk : (p.1 == k) = true
      · have hk : ¬ (key == k) = true := fun hk => hp (BEq.trans hpk (BEq.symm hk))
        simp [hpk, hk]
      · simp only [hpk]
        exact ih h.2

theorem get?_store (h : l.Distinct) (vanishes : ν → Bool) (key k : κ) (amount : ν) :
    (l.store vanishes key amount).get? k =
      if (key == k) = true then if vanishes amount then none else some amount else l.get? k := by
  rw [store]
  by_cases hv : vanishes amount = true
  · rw [if_pos hv, if_pos hv, get?_erase h]
  · rw [if_neg hv, if_neg hv, get?_put]

end Equivalence

/-! ## Where the keys stand -/

theorem keys_sublist_erase (l : Ledger κ ν) (key : κ) : (l.erase key).keys.Sublist l.keys :=
  List.eraseP_sublist.map _

/-- A present key that is stored keeps its place, and is gone if the amount vanishes. -/
theorem keys_store_of_contains (vanishes : ν → Bool) (amount : ν) (h : l.contains key = true) :
    (l.store vanishes key amount).keys =
      if vanishes amount then (l.erase key).keys else l.keys := by
  rw [store]
  split
  · rfl
  · rw [keys_put, if_pos h]

/-- A new key that is stored goes to the end, unless the amount vanishes. -/
theorem entries_store_of_not_contains (vanishes : ν → Bool) (amount : ν)
    (h : l.contains key = false) :
    (l.store vanishes key amount).entries =
      if vanishes amount then l.entries else l.entries ++ [(key, amount)] := by
  rw [contains_eq, Option.isSome_eq_false_iff, Option.isNone_iff_eq_none] at h
  obtain ⟨-, hput, herase⟩ := get?_eq_none h
  rw [store]
  split
  · exact herase
  · exact hput amount

end ExactAlgebra.Ledger
