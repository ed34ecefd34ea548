import ExactAlgebra.Expr.Order
import ExactAlgebra.Ledger
import ExactAlgebra.Proofs.Equality
import Mathlib.Data.List.Pairwise
import Mathlib.Data.Prod.Lex
import Mathlib.Data.String.Basic

/-!
# The order of entries

The comparison of two nodes goes by tier, then by name or by age, and equal nodes are level whatever
their ages.  So it is no order on all nodes: of two equal nodes the one may be older and the other
younger than a third.  It is a strict order where no two nodes are equal or of one age.

* `OrdersStrictly`: the comparison is a strict total order on the elements of a list.
* `Expr.compareBases_strict`, `Expr.compareTerms_strict`: so it is on unequal nodes of different
  ages.
* `Expr.compareBases_tiers`, `Expr.compareTerms_tiers`: the kinds of nodes come one after the other.
* `Ledger.InOrder`: the entries of a tally in an order that depends on nothing but its keys.
  `Ledger.sorted_inOrder`: sorting makes them so.
-/

namespace ExactAlgebra

/-! ## Strict orders -/

/-- The comparison is a strict total order on the elements of the list. -/
structure OrdersStrictly {κ : Type} (order : κ → κ → Ordering) (l : List κ) : Prop where
  swap : ∀ a ∈ l, ∀ b ∈ l, order b a = (order a b).swap
  eq_iff : ∀ a ∈ l, ∀ b ∈ l, order a b = .eq ↔ a = b
  trans : ∀ a ∈ l, ∀ b ∈ l, ∀ c ∈ l, order a b = .lt → order b c = .lt → order a c = .lt

namespace OrdersStrictly

variable {κ : Type} {order : κ → κ → Ordering} {l l' : List κ}

theorem subset (h : OrdersStrictly order l) (hl : l' ⊆ l) : OrdersStrictly order l' where
  swap a ha b hb := h.swap a (hl ha) b (hl hb)
  eq_iff a ha b hb := h.eq_iff a (hl ha) b (hl hb)
  trans a ha b hb c hc := h.trans a (hl ha) b (hl hb) c (hl hc)

/-- What compares different places in a linear order is a strict order. -/
theorem of_place {β : Type} [LinearOrder β] (place : κ → β)
    (hlt : ∀ a ∈ l, ∀ b ∈ l, place a < place b → order a b = .lt)
    (hgt : ∀ a ∈ l, ∀ b ∈ l, place b < place a → order a b = .gt)
    (heq : ∀ a ∈ l, order a a = .eq)
    (hinj : ∀ a ∈ l, ∀ b ∈ l, place a = place b → a = b) : OrdersStrictly order l := by
  have hplace : ∀ a ∈ l, ∀ b ∈ l, order a b = .lt → place a < place b := by
    intro a ha b hb h
    rcases lt_trichotomy (place a) (place b) with hab | hab | hab
    · exact hab
    · rw [← hinj a ha b hb hab, heq a ha] at h
      exact nomatch h
    · rw [hgt a ha b hb hab] at h
      exact nomatch h
  refine ⟨fun a ha b hb => ?_, fun a ha b hb => ⟨fun h => ?_, fun h => ?_⟩,
    fun a ha b hb c hc hab hbc => ?_⟩
  · rcases lt_trichotomy (place a) (place b) with hab | hab | hab
    · rw [hlt a ha b hb hab, hgt b hb a ha hab]
      rfl
    · rw [← hinj a ha b hb hab, heq a ha]
      rfl
    · rw [hgt a ha b hb hab, hlt b hb a ha hab]
      rfl
  · rcases lt_trichotomy (place a) (place b) with hab | hab | hab
    · rw [hlt a ha b hb hab] at h
      exact nomatch h
    · exact hinj a ha b hb hab
    · rw [hgt a ha b hb hab] at h
      exact nomatch h
  · rw [← h]
    exact heq a ha
  · exact hlt a ha c hc ((hplace a ha b hb hab).trans (hplace b hb c hc hbc))

/-- What is not before another element comes after it. -/
theorem lt_of_ne_lt (h : OrdersStrictly order l) {a b : κ} (ha : a ∈ l) (hb : b ∈ l) (hne : a ≠ b)
    (hlt : order a b ≠ .lt) : order b a = .lt := by
  rw [h.swap a ha b hb]
  cases hab : order a b with
  | lt => exact absurd hab hlt
  | eq => exact absurd ((h.eq_iff a ha b hb).mp hab) hne
  | gt => rfl

/-- No two elements come before each other. -/
theorem asymm (h : OrdersStrictly order l) {a b : κ} (ha : a ∈ l) (hb : b ∈ l)
    (hab : order a b = .lt) (hba : order b a = .lt) : a = b := by
  rw [h.swap a ha b hb, hab] at hba
  exact nomatch hba

end OrdersStrictly

/-! ## Sorted entries -/

namespace Ledger

variable {κ ν : Type} {order : κ → κ → Ordering}

/-- The entries of a tally in strict order, and the order depends on nothing but its keys: a tally
of the same keys, in whatever order they came in, is sorted in the same order. -/
structure InOrder (order : κ → κ → Ordering) (tally : Ledger κ ν) (entries : List (κ × ν)) :
    Prop where
  ascending : entries.Pairwise fun p q => order p.1 q.1 = .lt
  perm : entries.Perm tally.entries
  keys_only : ∀ {μ : Type} (l : Ledger κ μ), l.keys.Perm tally.keys →
    (l.sorted order).map Prod.fst = entries.map Prod.fst

theorem insertEntry_ascending {entry : κ × ν} {entries : List (κ × ν)}
    (h : OrdersStrictly order (entry.1 :: entries.map Prod.fst))
    (hnew : entry.1 ∉ entries.map Prod.fst)
    (hs : entries.Pairwise fun p q => order p.1 q.1 = .lt) :
    (insertEntry order entry entries).Pairwise fun p q => order p.1 q.1 = .lt := by
  induction entries with
  | nil => exact List.pairwise_singleton _ _
  | cons other entries ih =>
    rw [List.pairwise_cons] at hs
    have hother : other.1 ∈ entry.1 :: (other :: entries).map Prod.fst := by simp
    have htail : entry.1 :: entries.map Prod.fst ⊆ entry.1 :: (other :: entries).map Prod.fst := by
      intro a ha
      simp only [List.map_cons, List.mem_cons] at ha ⊢
      tauto
    simp only [List.map_cons, List.mem_cons, not_or] at hnew
    rw [insertEntry]
    split
    next hlt =>
      rw [List.pairwise_cons]
      refine ⟨fun p hp => ?_, ih (h.subset htail) hnew.2 hs.2⟩
      rcases List.mem_cons.mp ((insertEntry_perm order entry entries).mem_iff.mp hp) with rfl | hp
      · exact beq_iff_eq.mp hlt
      · exact hs.1 p hp
    next hlt =>
      -- What does not come before the entry comes after it, since the keys are different.
      have hfirst : order entry.1 other.1 = .lt :=
        h.lt_of_ne_lt hother List.mem_cons_self (Ne.symm hnew.1) (by simpa using hlt)
      rw [List.pairwise_cons, List.pairwise_cons]
      refine ⟨fun p hp => ?_, hs⟩
      rcases List.mem_cons.mp hp with rfl | hp
      · exact hfirst
      · have hmem : p.1 ∈ entry.1 :: (other :: entries).map Prod.fst :=
          htail (List.mem_cons_of_mem _ (List.mem_map_of_mem hp))
        exact h.trans _ List.mem_cons_self _ hother _ hmem hfirst (hs.1 p hp)

/-- Sorting puts the entries of different keys in strict order. -/
theorem sorted_ascending {l : Ledger κ ν} (h : OrdersStrictly order l.keys) (hl : l.keys.Nodup) :
    (l.sorted order).Pairwise fun p q => order p.1 q.1 = .lt := by
  obtain ⟨entries⟩ := l
  induction entries with
  | nil => exact .nil
  | cons entry entries ih =>
    rw [keys, List.map_cons] at h hl
    rw [List.nodup_cons] at hl
    have hperm : (((Ledger.mk entries).sorted order).map Prod.fst).Perm (entries.map Prod.fst) :=
      (sorted_perm order ⟨entries⟩).map _
    have hs := ih (h.subset (List.subset_cons_self _ _)) hl.2
    refine insertEntry_ascending (h.subset ?_) ?_ hs
    · exact List.cons_subset_cons _ hperm.subset
    · exact fun hmem => hl.1 (hperm.subset hmem)

theorem keys_sorted_perm (l : Ledger κ ν) (order : κ → κ → Ordering) :
    ((l.sorted order).map Prod.fst).Perm l.keys := (l.sorted_perm order).map _

/-- **Sorting puts entries in an order that depends on nothing but their keys**, as far as the keys
are different and strictly ordered. -/
theorem sorted_inOrder {l : Ledger κ ν} (h : OrdersStrictly order l.keys) (hl : l.keys.Nodup) :
    l.InOrder order (l.sorted order) := by
  refine ⟨sorted_ascending h hl, l.sorted_perm order, fun l' hperm => ?_⟩
  -- Two ascending lists of the same keys are one list, for no two keys come before each other.
  have hs' := sorted_ascending (h.subset hperm.subset) (hperm.nodup_iff.mpr hl)
  have hs := sorted_ascending h hl
  have hkeys : ((l'.sorted order).map Prod.fst).Perm ((l.sorted order).map Prod.fst) :=
    ((keys_sorted_perm l' order).trans hperm).trans (keys_sorted_perm l order).symm
  have hasymm : ∀ a b, a ∈ (l'.sorted order).map Prod.fst → b ∈ (l.sorted order).map Prod.fst →
      order a b = .lt → order b a = .lt → a = b := by
    intro a b ha hb
    have ha' := hperm.subset ((keys_sorted_perm l' order).subset ha)
    exact h.asymm ha' ((keys_sorted_perm l order).subset hb)
  exact hkeys.eq_of_pairwise hasymm (List.pairwise_map.mpr hs') (List.pairwise_map.mpr hs)

end Ledger

/-! ## Nodes -/

namespace Expr

def isVar : Expr → Bool
  | .var _ => true
  | _ => false

theorem exists_of_isVar {e : Expr} (h : e.isVar = true) : ∃ name, e = .var name := by
  cases e with
  | var name => exact ⟨name, rfl⟩
  | _ => exact nomatch h

/-- The expressions are unequal and, unless one of them is a variable, of different ages. -/
def Unlike (a b : Expr) : Prop :=
  (a == b) = false ∧ (a.age = b.age → a.isVar = true ∨ b.isVar = true)

theorem Unlike.symm {a b : Expr} (h : Unlike a b) : Unlike b a :=
  ⟨BEq.symm_false h.1, fun hage => (h.2 hage.symm).symm⟩

/-- No two of the expressions are equal, and no two nodes but variables are of the same age. -/
def Apart (l : List Expr) : Prop := l.Pairwise Unlike

theorem Apart.cases {l : List Expr} (h : Apart l) {a b : Expr} (ha : a ∈ l) (hb : b ∈ l) :
    a = b ∨ Unlike a b := by
  by_cases he : a = b
  · exact .inl he
  · have : Std.Symm Unlike := ⟨fun _ _ => .symm⟩
    exact .inr (List.Pairwise.forall h ha hb he)

theorem Apart.nodup {l : List Expr} (h : Apart l) : l.Nodup := by
  refine h.imp fun {a b} hab he => ?_
  have hne := hab.1
  rw [he, BEq.rfl] at hne
  exact nomatch hne

/-- Two nodes that are not both variables go by age. -/
theorem seniority_eq {a b : Expr} (h : ∀ name name', ¬ (a = .var name ∧ b = .var name')) :
    seniority a b = if a == b then .eq else if a.age < b.age then .lt else .gt := by
  unfold seniority
  split
  next name name' => exact absurd ⟨rfl, rfl⟩ (h name name')
  next => rfl

/-- The name of a variable; other nodes have none. -/
def nameOf : Expr → String
  | .var name => name
  | _ => ""

theorem nameOf_of_not_var {e : Expr} (h : e.isVar = false) : e.nameOf = "" := by
  cases e with
  | var name => exact nomatch h
  | _ => rfl

/-- Where a node stands in the order: first by tier, then by name, then by age. -/
def place (tier : Expr → Nat) (e : Expr) : ℕ ×ₗ (String ×ₗ ℕ) :=
  toLex (tier e, toLex (e.nameOf, e.age))

theorem place_lt_iff {tier : Expr → Nat} {a b : Expr} : place tier a < place tier b ↔
    tier a < tier b ∨
      tier a = tier b ∧ (a.nameOf < b.nameOf ∨ a.nameOf = b.nameOf ∧ a.age < b.age) := by
  rw [place, place, Prod.Lex.toLex_lt_toLex, Prod.Lex.toLex_lt_toLex]

/-- Two unequal variables go by name, and two other unequal nodes by age. -/
theorem seniority_place {a b : Expr} (hvar : a.isVar = b.isVar) (hne : (a == b) = false) :
    (a.nameOf < b.nameOf ∨ a.nameOf = b.nameOf ∧ a.age < b.age → seniority a b = .lt) ∧
      (b.nameOf < a.nameOf ∨ b.nameOf = a.nameOf ∧ b.age < a.age → seniority a b = .gt) := by
  cases ha : a.isVar with
  | true =>
    -- Variables have no age.
    obtain ⟨name, rfl⟩ := exists_of_isVar ha
    obtain ⟨name', rfl⟩ := exists_of_isVar (hvar.symm.trans ha)
    have hname : (name == name') = false := hne
    rw [seniority, hname, if_neg Bool.false_ne_true]
    refine ⟨fun h => ?_, fun h => ?_⟩
    · have hlt : name < name' := h.resolve_right fun h' => Nat.lt_irrefl 0 h'.2
      exact if_pos hlt
    · have hlt : name' < name := h.resolve_right fun h' => Nat.lt_irrefl 0 h'.2
      exact if_neg (lt_asymm hlt)
  | false =>
    have hsenior := seniority_eq (a := a) (b := b) fun name name' h => by
      rw [h.1] at ha
      exact nomatch ha
    have hb : b.isVar = false := hvar.symm.trans ha
    rw [hsenior, hne, if_neg Bool.false_ne_true, nameOf_of_not_var ha, nameOf_of_not_var hb]
    refine ⟨fun h => if_pos ?_, fun h => if_neg ?_⟩
    · exact (h.resolve_left (lt_irrefl "")).2
    · exact (h.resolve_left (lt_irrefl "")).2.not_gt

/-- Of two unequal nodes, the comparison finds out which stands first. -/
theorem compareBy_place {tier : Expr → Nat} {a b : Expr}
    (htier : tier a = tier b → a.isVar = b.isVar) (hne : (a == b) = false) :
    (place tier a < place tier b → compareBy tier a b = .lt) ∧
      (place tier b < place tier a → compareBy tier a b = .gt) := by
  rw [place_lt_iff, place_lt_iff, compareBy]
  rcases lt_trichotomy (tier a) (tier b) with h | h | h
  · exact ⟨fun _ => if_pos h, fun h' => by omega⟩
  · have hsenior := seniority_place (htier h) hne
    rw [if_neg (by omega), if_neg (by omega)]
    refine ⟨fun h' => hsenior.1 ?_, fun h' => hsenior.2 ?_⟩
    · exact (h'.resolve_left (by omega)).2
    · exact (h'.resolve_left (by omega)).2
  · exact ⟨fun h' => by omega, fun _ => by rw [if_neg (by omega), if_pos h]⟩

theorem compareBy_self (tier : Expr → Nat) (a : Expr) : compareBy tier a a = .eq := by
  rw [compareBy, if_neg (Nat.lt_irrefl _), if_neg (Nat.lt_irrefl _)]
  unfold seniority
  split
  · rw [BEq.rfl, if_pos rfl]
  · rw [BEq.rfl, if_pos rfl]

/-- Expressions that are apart stand in different places. -/
theorem place_injective {tier : Expr → Nat} {l : List Expr} (h : Apart l)
    (htier : ∀ a b, tier a = tier b → a.isVar = b.isVar) :
    ∀ a ∈ l, ∀ b ∈ l, place tier a = place tier b → a = b := by
  intro a ha b hb hplace
  obtain ⟨hsame, hrest⟩ := Prod.mk.inj (toLex.injective hplace)
  obtain ⟨hname, hage⟩ := Prod.mk.inj (toLex.injective hrest)
  rcases h.cases ha hb with rfl | ⟨-, hvar⟩
  · rfl
  · have hboth := htier a b hsame
    have hvars : a.isVar = true ∧ b.isVar = true := by
      rcases hvar hage with hv | hv
      · exact ⟨hv, by rw [← hboth, hv]⟩
      · exact ⟨by rw [hboth, hv], hv⟩
    obtain ⟨name, rfl⟩ := exists_of_isVar hvars.1
    obtain ⟨name', rfl⟩ := exists_of_isVar hvars.2
    exact congrArg _ hname

theorem compareBy_strict {tier : Expr → Nat} {l : List Expr} (h : Apart l)
    (htier : ∀ a b, tier a = tier b → a.isVar = b.isVar) : OrdersStrictly (compareBy tier) l := by
  have hself : ∀ a : Expr, ¬ place tier a < place tier a := fun a => lt_irrefl _
  refine .of_place (place tier) (fun a ha b hb hlt => ?_) (fun a ha b hb hlt => ?_)
    (fun a _ => compareBy_self tier a) (place_injective h htier)
  · rcases h.cases ha hb with rfl | ⟨hne, -⟩
    · exact absurd hlt (hself a)
    · exact (compareBy_place (htier a b) hne).1 hlt
  · rcases h.cases ha hb with rfl | ⟨hne, -⟩
    · exact absurd hlt (hself a)
    · exact (compareBy_place (htier a b) hne).2 hlt

/-- **Bases that are apart are strictly ordered.** -/
theorem compareBases_strict {l : List Expr} (h : Apart l) : OrdersStrictly compareBases l :=
  compareBy_strict h fun a b he => by cases a <;> cases b <;> first | rfl | exact nomatch he

/-- **Terms that are apart are strictly ordered.** -/
theorem compareTerms_strict {l : List Expr} (h : Apart l) : OrdersStrictly compareTerms l :=
  compareBy_strict h fun a b he => by cases a <;> cases b <;> first | rfl | exact nomatch he

section Tiers

variable (n : Num) (name : String) (i j k : Nat) (b e : Expr) (c d : Num)
  (factors : List (Expr × Expr)) (summands : List (Expr × Num))

/-- Among bases there are first numbers, then variables, products, powers and sums. -/
theorem compareBases_tiers : [Expr.num n, .var name, .product i c factors, .power j b e,
    .sum k d summands].Pairwise fun a b => compareBases a b = .lt := by
  simp [compareBases, compareBy, baseTier]

/-- Among terms there are first powers, then products, variables, sums and numbers. -/
theorem compareTerms_tiers : [Expr.power j b e, .product i c factors, .var name,
    .sum k d summands, .num n].Pairwise fun a b => compareTerms a b = .lt := by
  simp [compareTerms, compareBy, termTier]

end Tiers

end Expr

end ExactAlgebra
