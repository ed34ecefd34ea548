import ExactAlgebra.Expr.Canonical
import ExactAlgebra.Proofs.Equality
import ExactAlgebra.Proofs.Ledger.Lookup
import ExactAlgebra.Proofs.Outcome
import Mathlib

/-!
# Accumulating numbers

When numbers are posted one after the other, a key holds the sum of what has been posted at it and
at the keys equal to it, however often it has vanished and come back on the way.  The order of the
postings shows in nothing but the order of the keys: each key stands where it last came in.

* `Ledger.accumulate`: the ledger after some postings.
* `Ledger.posted`: what has been posted at a key in all.
* `Ledger.EntersAt`: a posting at a key that is absent.
* `Accumulated.store`, `ByLastEntry.store`: what one posting does to the sums and to the order.
* `accumulate_posted`: the sums, their independence of the order, and the order of the keys.
-/

namespace ExactAlgebra.Ledger

variable {κ : Type} [BEq κ]

/-- The ledger after numbers have been posted one after the other into an empty one. -/
def accumulate (s : Supply) (postings : List (κ × Num)) : Except Fault (Ledger κ Num) :=
  (postings.foldlM (fun l p => l.post SumDraft.rule p.1 p.2) (empty : Ledger κ Num) s).1

/-- What is posted at a key and at its equals. -/
def posted (postings : List (κ × Num)) (key : κ) : ℚ :=
  ((postings.filter fun p => p.1 == key).map fun p => p.2.value).sum

/-- The posting in this place is one at the key, made while the key is absent. -/
def EntersAt (s : Supply) (postings : List (κ × Num)) (key : κ) (i : ℕ) : Prop :=
  ∃ p l, postings[i]? = some p ∧ (p.1 == key) = true ∧
    accumulate s (postings.take i) = .ok l ∧ l.contains key = false

/-- This is the place of the most recent posting at the key made while the key was absent. -/
def LastEntersAt (s : Supply) (postings : List (κ × Num)) (key : κ) (i : ℕ) : Prop :=
  IsGreatest {i | EntersAt s postings key i} i

variable {s : Supply} {postings : List (κ × Num)} {l : Ledger κ Num}

/-! ## One posting -/

/-- A posting adds to what is there, or to zero, and stores the sum. -/
theorem accumulate_concat (h : accumulate s postings = .ok l) (p : κ × Num) :
    ∃ n, n.value = ((l.get? p.1).getD .zero).value + p.2.value ∧
      accumulate s (postings ++ [p]) = .ok (l.store Num.isZero p.1 n) := by
  rw [accumulate] at h
  generalize hrun : postings.foldlM (fun l p => l.post SumDraft.rule p.1 p.2)
    (empty : Ledger κ Num) s = run at h
  obtain ⟨outcome, t⟩ := run
  obtain rfl : outcome = .ok l := h
  refine ⟨⟨((l.get? p.1).getD .zero).toRatio.add p.2.toRatio, t.label t.next⟩,
    Ratio.toRat_add .., ?_⟩
  rw [accumulate, List.foldlM_append, Build.bind_of_ok hrun]
  rfl

theorem posted_concat (postings : List (κ × Num)) (p : κ × Num) (key : κ) :
    posted (postings ++ [p]) key =
      posted postings key + if (p.1 == key) = true then p.2.value else 0 := by
  rw [posted, List.filter_append, List.map_append, List.sum_append, List.filter_singleton, posted]
  by_cases h : (p.1 == key) = true <;> simp [h]

theorem posted_perm {postings' : List (κ × Num)} (h : postings.Perm postings') (key : κ) :
    posted postings key = posted postings' key := ((h.filter _).map _).sum_eq

/-- Later postings have no bearing on which of the earlier ones found the key absent. -/
theorem entersAt_concat (h : accumulate s postings = .ok l) {p : κ × Num} {key : κ} {i : ℕ} :
    EntersAt s (postings ++ [p]) key i ↔ EntersAt s postings key i ∨
      i = postings.length ∧ (p.1 == key) = true ∧ l.contains key = false := by
  rw [EntersAt, EntersAt]
  rcases Nat.lt_trichotomy i postings.length with hi | rfl | hi
  · rw [List.getElem?_append_left hi, List.take_append_of_le_length hi.le]
    exact ⟨.inl, fun h => h.elim id fun h => absurd h.1 hi.ne⟩
  · rw [List.getElem?_concat_length, List.take_left]
    constructor
    · rintro ⟨q, l', hq, hkey, hl', habsent⟩
      obtain rfl := Option.some.inj hq
      obtain rfl := Except.ok.inj (h.symm.trans hl')
      exact .inr ⟨rfl, hkey, habsent⟩
    · rintro (⟨q, -, hq, -⟩ | ⟨-, hkey, habsent⟩)
      · rw [List.getElem?_eq_none le_rfl] at hq
        exact nomatch hq
      · exact ⟨p, l, rfl, hkey, h, habsent⟩
  · have hnone : ∀ ps : List (κ × Num), ps.length ≤ i → ∀ q, ps[i]? ≠ some q :=
    fun ps hps q hq => by
      rw [List.getElem?_eq_none hps] at hq
      exact nomatch hq
    constructor
    · rintro ⟨q, -, hq, -⟩
      exact absurd hq (hnone _ (by rw [List.length_append, List.length_singleton]; omega) q)
    · rintro (⟨q, -, hq, -⟩ | ⟨rfl, -⟩)
      · exact absurd hq (hnone _ hi.le q)
      · exact absurd hi (lt_irrefl _)

/-- A posting at another key, or at one that is present, is no entry of the key. -/
theorem lastEntersAt_concat (h : accumulate s postings = .ok l) {p : κ × Num} {key : κ}
    (hkey : (p.1 == key) = true → l.contains key = true) {i : ℕ} :
    LastEntersAt s (postings ++ [p]) key i ↔ LastEntersAt s postings key i := by
  have hsame : {i | EntersAt s (postings ++ [p]) key i} = {i | EntersAt s postings key i} := by
    ext j
    rw [Set.mem_ofPred_eq, entersAt_concat h]
    refine or_iff_left ?_
    rintro ⟨-, heq, habsent⟩
    rw [hkey heq] at habsent
    exact nomatch habsent
  rw [LastEntersAt, hsame, LastEntersAt]

theorem EntersAt.lt_length {key : κ} {i : ℕ} (h : EntersAt s postings key i) :
    i < postings.length := by
  obtain ⟨p, -, hp, -⟩ := h
  exact (List.getElem?_eq_some_iff.mp hp).1

/-- A posting at an absent key is the last entry of this key. -/
theorem lastEntersAt_length (h : accumulate s postings = .ok l) {p : κ × Num} {key : κ}
    (hkey : (p.1 == key) = true) (habsent : l.contains key = false) :
    LastEntersAt s (postings ++ [p]) key postings.length := by
  refine ⟨(entersAt_concat h).mpr (.inr ⟨rfl, hkey, habsent⟩), fun i hi => ?_⟩
  have hlt : i < (postings ++ [p]).length := EntersAt.lt_length hi
  rw [List.length_append, List.length_singleton] at hlt
  omega

/-! ## Sums -/

/-- The ledger holds the sums of the postings: no two keys are equal, and a key is present, with
what has been posted at it, unless this is zero. -/
structure Accumulated (postings : List (κ × Num)) (l : Ledger κ Num) : Prop where
  distinct : l.Distinct
  found : ∀ key, (l.get? key).map Num.value =
    if posted postings key = 0 then none else some (posted postings key)

theorem Accumulated.empty : Accumulated ([] : List (κ × Num)) Ledger.empty :=
  ⟨.empty, fun _ => rfl⟩

/-- What is posted is what a key holds, if an absent key holds zero. -/
theorem Accumulated.balance (h : Accumulated postings l) (key : κ) :
    ((l.get? key).getD .zero).value = posted postings key := by
  have hfound := h.found key
  cases hg : l.get? key with
  | none =>
    rw [hg, Option.map_none] at hfound
    split at hfound
    next h0 => exact h0.symm
    next => exact nomatch hfound
  | some n =>
    rw [hg, Option.map_some] at hfound
    split at hfound
    next => exact nomatch hfound
    next => exact Option.some.inj hfound

theorem Accumulated.contains_eq_false_iff (h : Accumulated postings l) (key : κ) :
    l.contains key = false ↔ posted postings key = 0 := by
  have hfound := h.found key
  rw [contains_eq, Option.isSome_eq_false_iff, Option.isNone_iff_eq_none, ← Option.map_eq_none_iff,
    hfound]
  split <;> simp [*]

theorem Accumulated.value_eq (h : Accumulated postings l) {key : κ} {n : Num}
    (hn : l.get? key = some n) : n.value = posted postings key := by
  rw [← h.balance key, hn, Option.getD_some]

section Equivalence

variable [EquivBEq κ]

/-- A posting adds to the sum of its key. -/
theorem Accumulated.store (h : Accumulated postings l) {p : κ × Num} {n : Num}
    (hn : n.value = ((l.get? p.1).getD .zero).value + p.2.value) :
    Accumulated (postings ++ [p]) (l.store Num.isZero p.1 n) := by
  refine ⟨h.distinct.store _ _ _, fun key => ?_⟩
  rw [get?_store h.distinct, posted_concat]
  by_cases hkey : (p.1 == key) = true
  · have hsum : posted postings key + p.2.value = n.value := by
      rw [hn, get?_congr hkey, h.balance]
    rw [if_pos hkey, if_pos hkey, hsum]
    have hzero : n.isZero = true ↔ n.value = 0 := Num.isZero_iff
    by_cases h0 : n.value = 0
    · rw [if_pos h0, if_pos (hzero.mpr h0), Option.map_none]
    · rw [if_neg h0, if_neg (mt hzero.mp h0), Option.map_some]
  · rw [if_neg hkey, if_neg hkey, add_zero, h.found]

/-! ## Order -/

theorem contains_of_mem_keys {key : κ} (h : key ∈ l.keys) : l.contains key = true := by
  obtain ⟨p, hp, rfl⟩ := List.mem_map.mp h
  exact List.any_eq_true.mpr ⟨p, hp, BEq.rfl⟩

/-- Each key is that of its most recent entry, and the keys stand in the order of these entries. -/
structure ByLastEntry (s : Supply) (postings : List (κ × Num)) (keys : List κ) : Prop where
  entered : ∀ key ∈ keys, ∃ i, LastEntersAt s postings key i ∧
    postings[i]?.map Prod.fst = some key
  ascending : keys.Pairwise fun a b => ∀ i j, LastEntersAt s postings a i →
    LastEntersAt s postings b j → i < j

/-- A posting leaves the order of those keys as it is that were there and still are. -/
theorem ByLastEntry.kept (h : ByLastEntry s postings l.keys) (hl : accumulate s postings = .ok l)
    (p : κ × Num) {keys : List κ} (hkeys : keys.Sublist l.keys) :
    ByLastEntry s (postings ++ [p]) keys := by
  have hsame : ∀ key ∈ keys, ∀ i, LastEntersAt s (postings ++ [p]) key i ↔
      LastEntersAt s postings key i := fun key hkey i =>
    lastEntersAt_concat hl fun _ => contains_of_mem_keys (hkeys.subset hkey)
  refine ⟨fun key hkey => ?_, ?_⟩
  · obtain ⟨i, hi, hp⟩ := h.entered key (hkeys.subset hkey)
    refine ⟨i, (hsame key hkey i).mpr hi, ?_⟩
    rwa [List.getElem?_append_left (EntersAt.lt_length hi.1)]
  · refine (h.ascending.sublist hkeys).imp_of_mem fun {a b} ha hb hab i j hi hj => ?_
    exact hab i j ((hsame a ha i).mp hi) ((hsame b hb j).mp hj)

/-- A present key keeps its place or goes, and a new one comes in at the end. -/
theorem ByLastEntry.store (h : ByLastEntry s postings l.keys) (hl : accumulate s postings = .ok l)
    (p : κ × Num) (n : Num) :
    ByLastEntry s (postings ++ [p]) (l.store Num.isZero p.1 n).keys := by
  by_cases hpresent : l.contains p.1 = true
  · refine h.kept hl p ?_
    rw [keys_store_of_contains _ _ hpresent]
    split
    · exact keys_sublist_erase l p.1
    · exact .refl _
  · rw [Bool.not_eq_true] at hpresent
    have hentries := entries_store_of_not_contains Num.isZero n hpresent
    split at hentries
    next => exact h.kept hl p (by rw [keys, hentries]; exact .refl _)
    next =>
      have hkeys : (l.store Num.isZero p.1 n).keys = l.keys ++ [p.1] := by
        rw [keys, hentries, List.map_append]
        rfl
      have hlast := lastEntersAt_length (p := p) hl BEq.rfl hpresent
      have hkept := h.kept hl p (.refl _)
      rw [hkeys]
      refine ⟨fun key hkey => ?_, List.pairwise_append.mpr
        ⟨hkept.ascending, List.pairwise_singleton _ _, fun a ha b hb i j hi hj => ?_⟩⟩
      · rcases List.mem_append.mp hkey with hkey | hkey
        · exact hkept.entered key hkey
        · obtain rfl := List.mem_singleton.mp hkey
          exact ⟨_, hlast, by rw [List.getElem?_concat_length, Option.map_some]⟩
      · -- The new key has entered just now, every other one before.
        obtain rfl := List.mem_singleton.mp hb
        obtain rfl := hlast.unique hj
        have hbefore := (lastEntersAt_concat hl fun _ => contains_of_mem_keys ha).mp hi
        exact EntersAt.lt_length hbefore.1

/-! ## Any number of postings -/

theorem exists_accumulate (s : Supply) (postings : List (κ × Num)) :
    ∃ l, accumulate s postings = .ok l ∧ Accumulated postings l ∧
      ByLastEntry s postings l.keys := by
  induction postings using List.reverseRecOn with
  | nil => exact ⟨empty, rfl, .empty, by simp, .nil⟩
  | append_singleton postings p ih =>
    obtain ⟨l, hl, hsums, horder⟩ := ih
    obtain ⟨n, hn, hstore⟩ := accumulate_concat hl p
    exact ⟨_, hstore, hsums.store hn, horder.store hl p n⟩

/-- **Accumulation is free of order.**  Whatever numbers are posted, none of the postings fails.  Of
the keys in the ledger no two are equal; a key is absent if what has been posted at it and at its
equals comes to zero, and otherwise it holds this sum; so the same postings in another order leave
the same amounts at the same keys.  Each key is the one that was posted when it last came in, and
the keys stand in the order in which they last came in. -/
theorem accumulate_posted (s : Supply) (postings : List (κ × Num)) :
    ∃ l, accumulate s postings = .ok l ∧ l.Distinct ∧
      (∀ key, l.contains key = false ↔ posted postings key = 0) ∧
      (∀ key n, l.get? key = some n → n.value = posted postings key) ∧
      (∀ postings', postings.Perm postings' → ∀ t, ∃ l', accumulate t postings' = .ok l' ∧
        ∀ key, (l'.get? key).map Num.value = (l.get? key).map Num.value) ∧
      (∀ key ∈ l.keys, ∃ i, LastEntersAt s postings key i ∧
        postings[i]?.map Prod.fst = some key) ∧
      l.keys.Pairwise fun a b => ∀ i j, LastEntersAt s postings a i →
        LastEntersAt s postings b j → i < j := by
  obtain ⟨l, hl, hsums, horder⟩ := exists_accumulate s postings
  refine ⟨l, hl, hsums.distinct, hsums.contains_eq_false_iff, fun _ _ => hsums.value_eq,
    fun postings' hperm t => ?_, horder.entered, horder.ascending⟩
  obtain ⟨l', hl', hsums', -⟩ := exists_accumulate t postings'
  exact ⟨l', hl', fun key => by rw [hsums'.found, hsums.found, posted_perm hperm]⟩

end Equivalence

/-- One `x`, two `y`, minus one `x` and three `x`. -/
def returning : List (Expr × Num) :=
  [(.var "x", ⟨1, 5⟩), (.var "y", ⟨2, 6⟩), (.var "x", ⟨-1, 7⟩), (.var "x", ⟨3, 8⟩)]

/-- With the third posting `x` vanishes, and with the last one it comes back behind `y`.  The other
way round `x` never vanishes and stands first; the amounts are the same. -/
theorem accumulate_posted_returning : ∃ l l' : Ledger Expr Num,
    accumulate .initial returning = .ok l ∧ accumulate .initial returning.reverse = .ok l' ∧
      l.keys = [.var "y", .var "x"] ∧ l'.keys = [.var "x", .var "y"] ∧
      ∀ key, (l'.get? key).map Num.value = (l.get? key).map Num.value := by
  obtain ⟨l, hl, -, -, -, hperm, -⟩ := accumulate_posted .initial returning
  obtain ⟨l', hl', hsame⟩ := hperm _ (List.reverse_perm returning).symm .initial
  refine ⟨l, l', hl, hl', ?_, ?_, hsame⟩
  · have hkeys : (accumulate .initial returning).map keys = .ok [.var "y", .var "x"] := by cbv
    rw [hl] at hkeys
    exact Except.ok.inj hkeys
  · have hkeys : (accumulate .initial returning.reverse).map keys = .ok [.var "x", .var "y"] := by
      cbv
    rw [hl'] at hkeys
    exact Except.ok.inj hkeys

end ExactAlgebra.Ledger
