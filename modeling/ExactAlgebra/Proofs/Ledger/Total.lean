import ExactAlgebra.Proofs.Ledger
import Mathlib.Data.Finsupp.Basic

/-!
# What a ledger adds up to

The amounts of a ledger, key by key, are a function with finitely many values.  Posting an amount
adds it at its key, whether or not the key is present and whether or not it stays; so the order in
which amounts are posted has no bearing on what they add up to.

* `collect`: the finite function with given entries.
* `collect_injective`: entries of distinct keys that are not zero can be told from the function.
* `Ledger.total`: what the entries of a ledger add up to.  `Ledger.total_store`: what storing does.
-/

namespace ExactAlgebra

/-! ## Functions with finitely many values -/

section Collect

variable {κ M : Type} [AddCommMonoid M]

noncomputable def collect (m : Multiset (κ × M)) : κ →₀ M :=
  (m.map fun p => Finsupp.single p.1 p.2).sum

@[simp] theorem collect_zero : collect (0 : Multiset (κ × M)) = 0 := by
  rw [collect, Multiset.map_zero, Multiset.sum_zero]

theorem collect_cons (p : κ × M) (m : Multiset (κ × M)) :
    collect (p ::ₘ m) = Finsupp.single p.1 p.2 + collect m := by
  rw [collect, Multiset.map_cons, Multiset.sum_cons, collect]

@[simp] theorem collect_singleton (p : κ × M) : collect {p} = Finsupp.single p.1 p.2 := by
  rw [collect, Multiset.map_singleton, Multiset.sum_singleton]

theorem collect_add (m n : Multiset (κ × M)) : collect (m + n) = collect m + collect n := by
  rw [collect, Multiset.map_add, Multiset.sum_add, collect, collect]

/-- Without the entries of some keys, the function is zero there. -/
theorem collect_filter_apply (m : Multiset (κ × M)) (p : κ → Prop) [DecidablePred p] (k : κ) :
    collect (m.filter fun q => p q.1) k = if p k then collect m k else 0 := by
  induction m using Multiset.induction_on with
  | empty => rw [Multiset.filter_zero, collect_zero, Finsupp.zero_apply, ite_self]
  | cons q m ih =>
    by_cases hq : p q.1
    · rw [Multiset.filter_cons_of_pos m hq, collect_cons, collect_cons, Finsupp.add_apply, ih,
        Finsupp.add_apply]
      by_cases hk : p k
      · rw [if_pos hk, if_pos hk]
      · have hne : k ≠ q.1 := fun h => hk (h ▸ hq)
        rw [if_neg hk, if_neg hk, Finsupp.single_eq_of_ne hne, zero_add]
    · rw [Multiset.filter_cons_of_neg m hq, ih, collect_cons, Finsupp.add_apply]
      by_cases hk : p k
      · have hne : k ≠ q.1 := fun h => hq (h ▸ hk)
        rw [if_pos hk, if_pos hk, Finsupp.single_eq_of_ne hne, zero_add]
      · rw [if_neg hk, if_neg hk]

theorem collect_apply_of_notMem {m : Multiset (κ × M)} {k : κ} (h : k ∉ m.map Prod.fst) :
    collect m k = 0 := by
  induction m using Multiset.induction_on with
  | empty => rw [collect_zero, Finsupp.zero_apply]
  | cons p m ih =>
    rw [Multiset.map_cons, Multiset.mem_cons, not_or] at h
    rw [collect_cons, Finsupp.add_apply, ih h.2, Finsupp.single_eq_of_ne h.1, add_zero]

theorem collect_apply_of_mem {m : Multiset (κ × M)} (hk : (m.map Prod.fst).Nodup) {p : κ × M}
    (hp : p ∈ m) : collect m p.1 = p.2 := by
  induction m using Multiset.induction_on with
  | empty => exact absurd hp (Multiset.notMem_zero p)
  | cons q m ih =>
    rw [Multiset.map_cons, Multiset.nodup_cons] at hk
    rw [collect_cons, Finsupp.add_apply]
    rcases Multiset.mem_cons.mp hp with rfl | hp
    · rw [Finsupp.single_eq_same, collect_apply_of_notMem hk.1, add_zero]
    · have hne : p.1 ≠ q.1 := by
        intro h
        exact hk.1 (h ▸ Multiset.mem_map_of_mem _ hp)
      rw [Finsupp.single_eq_of_ne hne, ih hk.2 hp, zero_add]

/-- Entries of distinct keys that are not zero are the graph of the function. -/
theorem graph_collect {m : Multiset (κ × M)} (hk : (m.map Prod.fst).Nodup)
    (h0 : ∀ p ∈ m, p.2 ≠ 0) : (collect m).graph.val = m := by
  refine (Multiset.Nodup.ext (Finset.nodup _) (Multiset.Nodup.of_map _ hk)).mpr fun p => ?_
  rw [Finset.mem_val, Finsupp.mem_graph_iff]
  refine ⟨fun ⟨hvalue, hne⟩ => ?_, fun hp => ⟨collect_apply_of_mem hk hp, h0 p hp⟩⟩
  by_cases hmem : p.1 ∈ m.map Prod.fst
  · obtain ⟨q, hq, hqp⟩ := Multiset.mem_map.mp hmem
    have hq2 : q.2 = p.2 := by rw [← collect_apply_of_mem hk hq, hqp, hvalue]
    rwa [← Prod.ext hqp hq2]
  · rw [collect_apply_of_notMem hmem] at hvalue
    exact absurd hvalue.symm hne

/-- Entries of distinct keys that are not zero can be told from the function. -/
theorem collect_injective {m n : Multiset (κ × M)} (hm : (m.map Prod.fst).Nodup)
    (hn : (n.map Prod.fst).Nodup) (hm0 : ∀ p ∈ m, p.2 ≠ 0) (hn0 : ∀ p ∈ n, p.2 ≠ 0)
    (h : collect m = collect n) : m = n := by
  rw [← graph_collect hm hm0, ← graph_collect hn hn0, h]

end Collect

/-! ## Ledgers -/

namespace Ledger

variable {κ ν α M : Type} [AddCommMonoid M] (f : κ → α) (g : ν → M)

/-- What the entries add up to, for given meanings of keys and amounts. -/
noncomputable def total (l : Ledger κ ν) : α →₀ M :=
  collect (l.entries.map fun p => (f p.1, g p.2) : List (α × M))

variable [BEq κ]

/-- The entry of a present key beside those of the others. -/
theorem total_eq_of_get? {l : Ledger κ ν} {key : κ} {amount : ν} (h : l.get? key = some amount)
    (hf : ∀ k, (k == key) = true → f k = f key) :
    l.total f g = Finsupp.single (f key) (g amount) + (l.erase key).total f g := by
  obtain ⟨k, hk, hperm⟩ := perm_erase h
  rw [total, Multiset.coe_eq_coe.mpr (hperm.map _), List.map_cons, ← Multiset.cons_coe,
    collect_cons, hf k hk]
  rfl

/-- Storing replaces the entry of a key. -/
theorem total_store [ReflBEq κ] {vanishes : ν → Bool} (l : Ledger κ ν) {key : κ} {amount : ν}
    (hf : ∀ k, (k == key) = true → f k = f key) (h0 : vanishes amount = true → g amount = 0) :
    (l.store vanishes key amount).total f g =
      Finsupp.single (f key) (g amount) + (l.erase key).total f g := by
  rw [store]
  split
  next h => rw [h0 h, Finsupp.single_zero, zero_add]
  next =>
    obtain ⟨k, hk, hperm⟩ := put_perm l key amount
    rw [total, Multiset.coe_eq_coe.mpr (hperm.map _), List.map_cons, ← Multiset.cons_coe,
      collect_cons, hf k hk]
    rfl

/-- An amount that is combined with the present one, or with a start that counts for nothing, is
added at its key. -/
theorem total_combine [ReflBEq κ] {vanishes : ν → Bool} (l : Ledger κ ν) {key : κ}
    {start amount combined : ν} (hf : ∀ k, (k == key) = true → f k = f key)
    (h0 : vanishes combined = true → g combined = 0) (hstart : g start = 0)
    (hc : g combined = g ((l.get? key).getD start) + g amount) :
    (l.store vanishes key combined).total f g =
      l.total f g + Finsupp.single (f key) (g amount) := by
  rw [total_store f g l hf h0, hc, Finsupp.single_add]
  cases h : l.get? key with
  | some old =>
    rw [total_eq_of_get? f g h hf, Option.getD_some, add_right_comm]
  | none =>
    have herase : (l.erase key).total f g = l.total f g := by
      rw [total, total, (get?_eq_none h).2.2]
    rw [herase, Option.getD_none, hstart, Finsupp.single_zero, zero_add, add_comm]

/-- A stored entry is one of those before, or it has the key and the amount. -/
theorem mem_store [ReflBEq κ] {vanishes : ν → Bool} {l : Ledger κ ν} {key : κ} {amount : ν}
    {p : κ × ν} (hp : p ∈ (l.store vanishes key amount).entries) :
    p ∈ l.entries ∨ (p.1 == key) = true ∧ p.2 = amount := by
  rw [store] at hp
  split at hp
  · exact .inl (List.mem_of_mem_eraseP hp)
  · obtain ⟨k, hk, hperm⟩ := put_perm l key amount
    rcases List.mem_cons.mp (hperm.mem_iff.mp hp) with rfl | hp
    · exact .inr ⟨hk, rfl⟩
    · exact .inl (List.mem_of_mem_eraseP hp)

end Ledger

end ExactAlgebra
