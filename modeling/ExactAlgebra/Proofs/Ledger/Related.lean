import ExactAlgebra.Ledger
import Mathlib.Data.List.Forall2
import Mathlib.Data.Option.Defs

/-!
# Ledgers entry by entry

Two ledgers are related if their entries are, one by one.  As long as related keys are equal to each
other in the one exactly when they are in the other, whatever is done to both keeps them related.

* `Ledger.Related`: the entries are related, one by one.
* `Related.get?`, `Related.erase`, `Related.store`, `Related.sorted`: what is done to both.
-/

namespace ExactAlgebra.Ledger

variable {κ ν : Type} {K : κ → κ → Prop} {V : ν → ν → Prop} {l l' : Ledger κ ν} {k k' : κ}
  {v v' : ν}

def Related (K : κ → κ → Prop) (V : ν → ν → Prop) (l l' : Ledger κ ν) : Prop :=
  List.Forall₂ (fun p p' => K p.1 p'.1 ∧ V p.2 p'.2) l.entries l'.entries

theorem Related.empty : Related K V .empty .empty := .nil

theorem Related.mono {K' : κ → κ → Prop} {V' : ν → ν → Prop} (h : Related K V l l')
    (hK : ∀ k k', K k k' → K' k k') (hV : ∀ v v', V v v' → V' v v') : Related K' V' l l' :=
  List.Forall₂.imp (fun _ _ h => ⟨hK _ _ h.1, hV _ _ h.2⟩) h

theorem Related.map_keys {α : Type} {f : κ → α} (h : Related K V l l')
    (hf : ∀ k k', K k k' → f k = f k') : l.keys.map f = l'.keys.map f := by
  obtain ⟨entries⟩ := l
  obtain ⟨entries'⟩ := l'
  change List.Forall₂ _ entries entries' at h
  change (entries.map Prod.fst).map f = (entries'.map Prod.fst).map f
  induction h with
  | nil => rfl
  | cons hp _ ih => simp only [List.map_cons, hf _ _ hp.1, ih]

/-- The keys of entries that pass a test, if related entries do so alike. -/
theorem Related.filter_keys {p : κ × ν → Bool} (h : Related K V l l')
    (hp : ∀ q q', K q.1 q'.1 → V q.2 q'.2 → p q = p q') :
    List.Forall₂ K ((l.entries.filter p).map Prod.fst) ((l'.entries.filter p).map Prod.fst) := by
  obtain ⟨entries⟩ := l
  obtain ⟨entries'⟩ := l'
  change List.Forall₂ _ entries entries' at h
  induction h with
  | nil => exact .nil
  | cons hq _ ih =>
    rw [List.filter_cons, List.filter_cons, hp _ _ hq.1 hq.2]
    split
    · exact .cons hq.1 ih
    · exact ih

/-! ## Single keys -/

section Keys

variable [BEq κ]

theorem Related.get? (h : Related K V l l')
    (hK : ∀ a a' b b', K a a' → K b b' → (a == b) = (a' == b')) (hk : K k k') :
    Option.Rel V (l.get? k) (l'.get? k') := by
  obtain ⟨entries⟩ := l
  obtain ⟨entries'⟩ := l'
  change List.Forall₂ _ entries entries' at h
  simp only [Ledger.get?]
  induction h with
  | nil => exact .none
  | cons hp _ ih =>
    rw [List.find?_cons, List.find?_cons, hK _ _ _ _ hp.1 hk]
    split
    · exact .some hp.2
    · exact ih

theorem Related.erase (h : Related K V l l')
    (hK : ∀ a a' b b', K a a' → K b b' → (a == b) = (a' == b')) (hk : K k k') :
    Related K V (l.erase k) (l'.erase k') := by
  obtain ⟨entries⟩ := l
  obtain ⟨entries'⟩ := l'
  change List.Forall₂ _ entries entries' at h
  change List.Forall₂ _ (entries.eraseP _) (entries'.eraseP _)
  induction h with
  | nil => exact .nil
  | cons hp hl ih =>
    rw [List.eraseP_cons, List.eraseP_cons, hK _ _ _ _ hp.1 hk, Bool.cond_eq_ite, Bool.cond_eq_ite]
    split
    · exact hl
    · exact .cons hp ih

theorem Related.put (h : Related K V l l')
    (hK : ∀ a a' b b', K a a' → K b b' → (a == b) = (a' == b')) (hk : K k k') (hv : V v v') :
    Related K V (l.put k v) (l'.put k' v') := by
  obtain ⟨entries⟩ := l
  obtain ⟨entries'⟩ := l'
  change List.Forall₂ _ entries entries' at h
  change List.Forall₂ _ (putEntry k v entries) (putEntry k' v' entries')
  induction h with
  | nil => exact .cons ⟨hk, hv⟩ .nil
  | cons hp hl ih =>
    rw [putEntry, putEntry, hK _ _ _ _ hp.1 hk]
    split
    · exact .cons ⟨hp.1, hv⟩ hl
    · exact .cons hp ih

/-- What is stored need only be related if it does not vanish. -/
theorem Related.store {vanishes : ν → Bool} (h : Related K V l l')
    (hK : ∀ a a' b b', K a a' → K b b' → (a == b) = (a' == b')) (hk : K k k')
    (hvanish : vanishes v = vanishes v') (hv : vanishes v = false → V v v') :
    Related K V (l.store vanishes k v) (l'.store vanishes k' v') := by
  rw [Ledger.store, Ledger.store, ← hvanish]
  split
  · exact h.erase hK hk
  next hn => exact h.put hK hk (hv (by simpa using hn))

end Keys

/-! ## Order -/

/-- Ledgers whose related keys are in the same order are sorted alike. -/
theorem Related.sorted {order : κ → κ → Ordering} (h : Related K V l l')
    (horder : ∀ a a' b b', K a a' → K b b' → order a b = order a' b') :
    List.Forall₂ (fun p p' => K p.1 p'.1 ∧ V p.2 p'.2) (l.sorted order) (l'.sorted order) := by
  have hinsert {p p' : κ × ν} {entries entries' : List (κ × ν)} (hp : K p.1 p'.1 ∧ V p.2 p'.2)
      (h : List.Forall₂ (fun p p' => K p.1 p'.1 ∧ V p.2 p'.2) entries entries') :
      List.Forall₂ (fun p p' => K p.1 p'.1 ∧ V p.2 p'.2) (insertEntry order p entries)
        (insertEntry order p' entries') := by
    induction h with
    | nil => exact .cons hp .nil
    | cons hq hl ih =>
      rw [insertEntry, insertEntry, horder _ _ _ _ hq.1 hp.1]
      split
      · exact .cons hq ih
      · exact .cons hp (.cons hq hl)
  obtain ⟨entries⟩ := l
  obtain ⟨entries'⟩ := l'
  change List.Forall₂ _ entries entries' at h
  change List.Forall₂ _ (entries.foldr _ []) (entries'.foldr _ [])
  induction h with
  | nil => exact .nil
  | cons hp _ ih => exact hinsert hp ih

end ExactAlgebra.Ledger
