import ExactAlgebra.Ledger
import ExactAlgebra.Proofs.Outcome

/-!
# What a ledger holds

Storing and taking out change the entry of one key and leave the others where they are.

* `get?_eq_some`: where the entry of a present key stands, and what storing and taking out do there.
* `get?_eq_none`: a key without an entry; storing puts it at the end.
* `perm_erase`, `put_perm`: the entry of one key among the others, in no order.
* `Distinct.store`: no two keys are ever equal.
* `ensures_post`: what all entries have in common they keep when an amount is posted.
-/

namespace ExactAlgebra.Ledger

variable {κ ν : Type}

variable {K : κ → Prop} {V : ν → Prop}

def All (K : κ → Prop) (V : ν → Prop) (l : Ledger κ ν) : Prop := ∀ p ∈ l.entries, K p.1 ∧ V p.2

theorem All.empty : (Ledger.empty : Ledger κ ν).All K V := fun _ hp => nomatch hp

variable [BEq κ]

/-! ## The entry of a key -/

theorem get?_eq_some {l : Ledger κ ν} {key : κ} {amount : ν} (h : l.get? key = some amount) :
    ∃ k before after, (k == key) = true ∧ l.entries = before ++ (k, amount) :: after ∧
      (∀ v, (l.put key v).entries = before ++ (k, v) :: after) ∧
      (l.erase key).entries = before ++ after := by
  obtain ⟨entries⟩ := l
  simp only [get?, put, erase] at *
  induction entries with
  | nil => simp at h
  | cons p entries ih =>
    obtain ⟨k, v⟩ := p
    by_cases hk : (k == key) = true
    · simp only [List.find?_cons, hk, Option.map_some, Option.some.injEq] at h
      subst h
      exact ⟨k, [], entries, hk, rfl, fun w => by simp [putEntry, hk], by simp [hk]⟩
    · simp only [List.find?_cons, hk] at h
      obtain ⟨k', before, after, hk', rfl, hput, herase⟩ := ih h
      refine ⟨k', (k, v) :: before, after, hk', rfl, fun w => ?_, ?_⟩
      · simp [putEntry, hk, hput w]
      · rw [List.eraseP_cons_of_neg (by simpa using hk), herase]
        rfl

theorem get?_eq_none {l : Ledger κ ν} {key : κ} (h : l.get? key = none) :
    (∀ p ∈ l.entries, (p.1 == key) = false) ∧
      (∀ v, (l.put key v).entries = l.entries ++ [(key, v)]) ∧
      (l.erase key).entries = l.entries := by
  obtain ⟨entries⟩ := l
  simp only [get?, put, erase] at *
  rw [Option.map_eq_none_iff, List.find?_eq_none] at h
  have hall : ∀ p ∈ entries, (p.1 == key) = false := fun p hp => by simpa using h p hp
  refine ⟨hall, fun v => ?_, List.eraseP_of_forall_not fun p hp => by simp [hall p hp]⟩
  clear h
  induction entries with
  | nil => rfl
  | cons p entries ih =>
    rw [putEntry, if_neg (by simp [hall p]), ih fun q hq => hall q (List.mem_cons_of_mem _ hq)]
    rfl

/-- The entry of a present key comes out of the others. -/
theorem perm_erase {l : Ledger κ ν} {key : κ} {amount : ν} (h : l.get? key = some amount) :
    ∃ k, (k == key) = true ∧ l.entries.Perm ((k, amount) :: (l.erase key).entries) := by
  obtain ⟨k, before, after, hk, he, -, herase⟩ := get?_eq_some h
  exact ⟨k, hk, by rw [he, herase]; exact List.perm_middle⟩

/-- A stored amount joins the entries of the other keys. -/
theorem put_perm [ReflBEq κ] (l : Ledger κ ν) (key : κ) (amount : ν) :
    ∃ k, (k == key) = true ∧
      (l.put key amount).entries.Perm ((k, amount) :: (l.erase key).entries) := by
  cases h : l.get? key with
  | some old =>
    obtain ⟨k, before, after, hk, -, hput, herase⟩ := get?_eq_some h
    exact ⟨k, hk, by rw [hput, herase]; exact List.perm_middle⟩
  | none =>
    obtain ⟨-, hput, herase⟩ := get?_eq_none h
    exact ⟨key, BEq.rfl, by rw [hput, herase]; exact List.perm_append_singleton _ _⟩

/-! ## Keys -/

def Distinct (l : Ledger κ ν) : Prop := l.entries.Pairwise fun p q => (p.1 == q.1) = false

theorem Distinct.empty : (empty : Ledger κ ν).Distinct := .nil

theorem Distinct.erase {l : Ledger κ ν} (h : l.Distinct) (key : κ) : (l.erase key).Distinct :=
  List.Pairwise.sublist List.eraseP_sublist h

theorem Distinct.put {l : Ledger κ ν} (h : l.Distinct) (key : κ) (amount : ν) :
    (l.put key amount).Distinct := by
  cases hg : l.get? key with
  | some old =>
    obtain ⟨k, before, after, -, he, hput, -⟩ := get?_eq_some hg
    rw [Distinct, he] at h
    rw [Distinct, hput]
    simpa only [List.pairwise_append, List.pairwise_cons, List.forall_mem_cons] using h
  | none =>
    obtain ⟨hall, hput, -⟩ := get?_eq_none hg
    rw [Distinct, hput, List.pairwise_append]
    exact ⟨h, List.pairwise_singleton _ _, fun p hp q hq => by
      rw [List.mem_singleton.mp hq]; exact hall p hp⟩

theorem Distinct.store {l : Ledger κ ν} (h : l.Distinct) (vanishes : ν → Bool) (key : κ)
    (amount : ν) : (l.store vanishes key amount).Distinct := by
  rw [Ledger.store]
  split
  · exact h.erase key
  · exact h.put key amount

/-- Sorted entries still have distinct keys. -/
theorem Distinct.sorted [EquivBEq κ] {l : Ledger κ ν} (h : l.Distinct) (order : κ → κ → Ordering) :
    (l.sorted order).Pairwise fun p q => (p.1 == q.1) = false :=
  (l.sorted_perm order).symm.pairwise h fun h => BEq.symm_false h

/-! ## What all entries have in common -/

theorem All.erase {l : Ledger κ ν} (h : l.All K V) (key : κ) : (l.erase key).All K V :=
  fun p hp => h p (List.mem_of_mem_eraseP hp)

theorem All.put {l : Ledger κ ν} (h : l.All K V) {key : κ} {amount : ν} (hk : K key)
    (hv : V amount) : (l.put key amount).All K V := by
  cases hg : l.get? key with
  | some old =>
    obtain ⟨k, before, after, -, he, hput, -⟩ := get?_eq_some hg
    rw [All, he, List.forall_mem_append, List.forall_mem_cons] at h
    rw [All, hput, List.forall_mem_append, List.forall_mem_cons]
    exact ⟨h.1, ⟨h.2.1.1, hv⟩, h.2.2⟩
  | none =>
    rw [All, (get?_eq_none hg).2.1, List.forall_mem_append, List.forall_mem_singleton]
    exact ⟨h, hk, hv⟩

theorem All.store {l : Ledger κ ν} (h : l.All K V) {vanishes : ν → Bool} {key : κ} {amount : ν}
    (hk : K key) (hv : vanishes amount = false → V amount) :
    (l.store vanishes key amount).All K V := by
  rw [Ledger.store]
  split
  · exact h.erase key
  next hn => exact h.put hk (hv (by simpa using hn))

theorem All.get? {l : Ledger κ ν} (h : l.All K V) {key : κ} {amount : ν}
    (hg : l.get? key = some amount) : V amount := by
  obtain ⟨k, before, after, -, he, -⟩ := get?_eq_some hg
  exact (h (k, amount) (by rw [he]; simp)).2

/-- What all entries have in common they keep when an amount is posted, provided that the combined
amount has it as well or vanishes; and keys stay distinct. -/
theorem ensures_post {rule : Rule Build ν} {F : Fault → Prop} {l : Ledger κ ν} {key : κ}
    {amount : ν} (h : l.All K V) (hk : K key)
    (hc : ∀ old, V old ∨ old = rule.start → Build.Ensures (rule.combine old amount)
      (fun v => rule.vanishes v = false → V v) F) :
    Build.Ensures (l.post rule key amount)
      (fun l' => l'.All K V ∧ (l.Distinct → l'.Distinct)) F := by
  refine (hc _ ?_).bind fun v hv => .pure ⟨h.store hk hv, fun hd => hd.store _ _ _⟩
  cases hg : l.get? key with
  | some old => exact .inl (h.get? hg)
  | none => exact .inr rfl

end ExactAlgebra.Ledger
