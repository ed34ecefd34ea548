import ExactAlgebra.Expr.Basic
import ExactAlgebra.Proofs.Ratio
import Mathlib.Algebra.GroupWithZero.Nat
import Mathlib.Data.Rat.Encodable
import Mathlib.Logic.Equiv.Multiset

/-!
# Equality of expressions

Entries of products and sums are compared one by one: each entry of the one list takes an equal
entry out of the other.  That this is an equality at all rests on the fingerprint, a number in which
the entries are counted as a multiset: the comparison succeeds exactly when the fingerprints agree.

* `Expr.induct`: induction over expressions, with a hypothesis for every entry.
* `Expr.beq_iff`: two expressions are equal iff they have the same fingerprint.
* `instEquivBEq`: equality is reflexive, symmetric and transitive.
* `factorsMatch_map`, `summandsMatch_map`: matching lists have the same entries, as far as equality
  can tell, in some order.  `size_congr`: equal expressions are of equal size.
-/

namespace ExactAlgebra.Expr

open Encodable (encode encode_inj)

/-! ## Induction -/

/-- Induction over expressions: what holds of a node if it holds of all its parts holds of every
expression. -/
@[elab_as_elim, induction_eliminator]
theorem induct {P : Expr → Prop} (num : ∀ n, P (.num n)) (var : ∀ name, P (.var name))
    (power : ∀ age b e, P b → P e → P (.power age b e))
    (product : ∀ age c factors, (∀ p ∈ factors, P p.1 ∧ P p.2) → P (.product age c factors))
    (sum : ∀ age c summands, (∀ p ∈ summands, P p.1) → P (.sum age c summands)) (e : Expr) : P e :=
  @Expr.rec P (fun factors => ∀ p ∈ factors, P p.1 ∧ P p.2) (fun summands => ∀ p ∈ summands, P p.1)
    (fun p => P p.1 ∧ P p.2) (fun p => P p.1) num var power product sum
    (by simp) (fun _ _ hp hl => List.forall_mem_cons.mpr ⟨hp, hl⟩)
    (by simp) (fun _ _ hp hl => List.forall_mem_cons.mpr ⟨hp, hl⟩)
    (fun _ _ hb he => ⟨hb, he⟩) (fun _ _ ht => ht) e

/-! ## Fingerprints -/

mutual

/-- A number that two expressions share iff they are equal. -/
def fingerprint : Expr → ℕ
  | .num n => encode (0, encode n.value)
  | .var name => encode (1, encode (name.toList.map Char.toNat))
  | .power _ b e => encode (2, encode (b.fingerprint, e.fingerprint))
  | .product _ c factors => encode (3, encode (c.value, factorsFingerprint factors))
  | .sum _ c summands => encode (4, encode (c.value, summandsFingerprint summands))

/-- The fingerprints of the entries of a product, in no order. -/
def factorsFingerprint : List (Expr × Expr) → Multiset (ℕ × ℕ)
  | [] => 0
  | (b, e) :: factors => (b.fingerprint, e.fingerprint) ::ₘ factorsFingerprint factors

def summandsFingerprint : List (Expr × Num) → Multiset (ℕ × ℚ)
  | [] => 0
  | (t, c) :: summands => (t.fingerprint, c.value) ::ₘ summandsFingerprint summands

end

theorem factorsFingerprint_eq (factors : List (Expr × Expr)) : factorsFingerprint factors =
    (factors.map fun p => (p.1.fingerprint, p.2.fingerprint) : List (ℕ × ℕ)) := by
  induction factors with
  | nil => rfl
  | cons p factors ih => rw [factorsFingerprint, ih]; rfl

theorem summandsFingerprint_eq (summands : List (Expr × Num)) : summandsFingerprint summands =
    (summands.map fun p => (p.1.fingerprint, p.2.value) : List (ℕ × ℚ)) := by
  induction summands with
  | nil => rfl
  | cons p summands ih => rw [summandsFingerprint, ih]; rfl

/-! ## Taking out an entry -/

theorem removeFirst?_eq_some {α : Type} {p : α → Bool} {l rest : List α}
    (h : removeFirst? p l = some rest) :
    ∃ a l₁ l₂, p a = true ∧ l = l₁ ++ a :: l₂ ∧ rest = l₁ ++ l₂ := by
  induction l generalizing rest with
  | nil => simp [removeFirst?] at h
  | cons b l ih =>
    rw [removeFirst?] at h
    split at h
    next hb =>
      obtain rfl := Option.some.inj h
      exact ⟨b, [], l, hb, rfl, rfl⟩
    next =>
      obtain ⟨rest, hr, rfl⟩ := Option.map_eq_some_iff.mp h
      obtain ⟨a, l₁, l₂, ha, rfl, rfl⟩ := ih hr
      exact ⟨a, b :: l₁, l₂, ha, rfl, rfl⟩

theorem removeFirst?_eq_none {α : Type} {p : α → Bool} {l : List α}
    (h : removeFirst? p l = none) : ∀ a ∈ l, p a = false := by
  induction l with
  | nil => simp
  | cons b l ih =>
    rw [removeFirst?] at h
    split at h
    · exact nomatch h
    next hb =>
      intro a ha
      rcases List.mem_cons.mp ha with rfl | ha
      · simpa using hb
      · exact ih (Option.map_eq_none_iff.mp h) a ha

/-- One step of a comparison of lists as multisets: the key goes out of the other list. -/
theorem removeFirst?_iff {α γ : Type} {f : α → γ} {p : α → Bool} {k : γ}
    (hp : ∀ a, p a = true ↔ k = f a) (keys : Multiset γ) (others : List α) :
    (∃ rest, removeFirst? p others = some rest ∧ keys = (rest.map f : List γ)) ↔
      k ::ₘ keys = (others.map f : List γ) := by
  constructor
  · rintro ⟨rest, h, rfl⟩
    obtain ⟨a, l₁, l₂, ha, rfl, rfl⟩ := removeFirst?_eq_some h
    rw [(hp a).mp ha, Multiset.cons_coe, Multiset.coe_eq_coe, List.map_append, List.map_append,
      List.map_cons]
    exact List.perm_middle.symm
  · intro h
    cases hr : removeFirst? p others with
    | none =>
      have hk : k ∈ (others.map f : List γ) := by
        rw [← Multiset.mem_coe, ← h]; exact Multiset.mem_cons_self _ _
      obtain ⟨a, ha, rfl⟩ := List.mem_map.mp hk
      have := removeFirst?_eq_none hr a ha
      rw [(hp a).mpr rfl] at this
      exact nomatch this
    | some rest =>
      refine ⟨rest, rfl, ?_⟩
      obtain ⟨a, l₁, l₂, ha, rfl, rfl⟩ := removeFirst?_eq_some hr
      have hm : ((l₁ ++ a :: l₂).map f : Multiset γ) = k ::ₘ ((l₁ ++ l₂).map f : List γ) := by
        rw [(hp a).mp ha, Multiset.cons_coe, Multiset.coe_eq_coe, List.map_append, List.map_append,
          List.map_cons]
        exact List.perm_middle
      rw [hm] at h
      exact (Multiset.cons_inj_right k).mp h

/-! ## Equality is an equivalence -/

theorem factorsMatch_iff {factors : List (Expr × Expr)}
    (ih : ∀ p ∈ factors, (∀ d, p.1.beq d = true ↔ p.1.fingerprint = d.fingerprint) ∧
      ∀ d, p.2.beq d = true ↔ p.2.fingerprint = d.fingerprint) (others : List (Expr × Expr)) :
    factorsMatch factors others = true ↔
      factorsFingerprint factors = factorsFingerprint others := by
  induction factors generalizing others with
  | nil =>
    rw [factorsMatch, factorsFingerprint, factorsFingerprint_eq others]
    cases others <;> simp [← Multiset.cons_coe]
  | cons p factors ihl =>
    obtain ⟨b, e⟩ := p
    obtain ⟨hb, he⟩ := ih _ List.mem_cons_self
    have hl := ihl fun p hp => ih p (List.mem_cons_of_mem _ hp)
    rw [factorsFingerprint, factorsFingerprint_eq others,
      ← removeFirst?_iff (p := fun entry => b.beq entry.1 && e.beq entry.2)
        (by intro d; rw [Bool.and_eq_true, hb, he, Prod.mk.injEq]), factorsMatch]
    split
    next rest h => rw [hl, factorsFingerprint_eq rest]; simp [h]
    next h => simp [h]

theorem summandsMatch_iff {summands : List (Expr × Num)}
    (ih : ∀ p ∈ summands, ∀ d, p.1.beq d = true ↔ p.1.fingerprint = d.fingerprint)
    (others : List (Expr × Num)) :
    summandsMatch summands others = true ↔
      summandsFingerprint summands = summandsFingerprint others := by
  induction summands generalizing others with
  | nil =>
    rw [summandsMatch, summandsFingerprint, summandsFingerprint_eq others]
    cases others <;> simp [← Multiset.cons_coe]
  | cons p summands ihl =>
    obtain ⟨t, c⟩ := p
    have ht := ih _ List.mem_cons_self
    have hl := ihl fun p hp => ih p (List.mem_cons_of_mem _ hp)
    rw [summandsFingerprint, summandsFingerprint_eq others,
      ← removeFirst?_iff (p := fun entry => t.beq entry.1 && c == entry.2)
        (by intro d; rw [Bool.and_eq_true, ht, Num.beq_iff, Prod.mk.injEq]), summandsMatch]
    split
    next rest h => rw [hl, summandsFingerprint_eq rest]; simp [h]
    next h => simp [h]

theorem fingerprint_name {a b : String} :
    a.toList.map Char.toNat = b.toList.map Char.toNat ↔ a = b := by
  rw [List.map_inj_right fun _ _ => Char.toNat_inj.mp, String.toList_inj]

/-- **Two expressions are equal iff they have the same fingerprint.** -/
theorem beq_iff (a b : Expr) : a.beq b = true ↔ a.fingerprint = b.fingerprint := by
  induction a generalizing b with
  | num n => cases b <;> simp [beq, fingerprint]
  | var name => cases b <;> simp [beq, fingerprint, fingerprint_name]
  | power age x y ihx ihy => cases b <;> simp [beq, fingerprint, ihx, ihy]
  | product age c factors ih => cases b <;> simp [beq, fingerprint, factorsMatch_iff ih]
  | sum age c summands ih => cases b <;> simp [beq, fingerprint, summandsMatch_iff ih]

theorem eq_iff {a b : Expr} : (a == b) = true ↔ a.fingerprint = b.fingerprint := beq_iff a b

/-- Numbers are equal by value. -/
theorem num_eq_iff {n m : Num} : (Expr.num n == .num m) = true ↔ n.value = m.value :=
  Num.beq_iff

/-- Equality of canonical forms is reflexive, symmetric and transitive. -/
instance instEquivBEq : EquivBEq Expr where
  rfl := eq_iff.mpr rfl
  symm h := eq_iff.mpr (eq_iff.mp h).symm
  trans h h' := eq_iff.mpr ((eq_iff.mp h).trans (eq_iff.mp h'))

/-! ## Entry by entry -/

/-- What depends on nothing but the classes of the parts of an entry is the same, in some order, for
matching entries of products. -/
theorem factorsMatch_map {γ : Type} {f : Expr × Expr → γ} {factors others : List (Expr × Expr)}
    (hf : ∀ p ∈ factors, ∀ q, p.1.beq q.1 = true → p.2.beq q.2 = true → f p = f q)
    (h : factorsMatch factors others = true) : (others.map f).Perm (factors.map f) := by
  induction factors generalizing others with
  | nil =>
    rw [factorsMatch, List.isEmpty_iff] at h
    rw [h]
  | cons p factors ih =>
    obtain ⟨b, e⟩ := p
    rw [factorsMatch] at h
    rw [List.forall_mem_cons] at hf
    split at h
    next rest hr =>
      obtain ⟨q, l₁, l₂, hq, rfl, rfl⟩ := removeFirst?_eq_some hr
      rw [Bool.and_eq_true] at hq
      rw [List.map_cons, hf.1 q hq.1 hq.2]
      exact (List.perm_middle.map f).trans ((ih hf.2 h).cons _)
    next => exact nomatch h

/-- The same for matching entries of sums. -/
theorem summandsMatch_map {γ : Type} {f : Expr × Num → γ} {summands others : List (Expr × Num)}
    (hf : ∀ p ∈ summands, ∀ q, p.1.beq q.1 = true → p.2.value = q.2.value → f p = f q)
    (h : summandsMatch summands others = true) : (others.map f).Perm (summands.map f) := by
  induction summands generalizing others with
  | nil =>
    rw [summandsMatch, List.isEmpty_iff] at h
    rw [h]
  | cons p summands ih =>
    obtain ⟨t, c⟩ := p
    rw [summandsMatch] at h
    rw [List.forall_mem_cons] at hf
    split at h
    next rest hr =>
      obtain ⟨q, l₁, l₂, hq, rfl, rfl⟩ := removeFirst?_eq_some hr
      rw [Bool.and_eq_true, Num.beq_iff] at hq
      rw [List.map_cons, hf.1 q hq.1 hq.2]
      exact (List.perm_middle.map f).trans ((ih hf.2 h).cons _)
    next => exact nomatch h

/-! ## Equal expressions are of equal size -/

theorem factorsSize_eq (factors : List (Expr × Expr)) :
    factorsSize factors = (factors.map fun p => p.1.size + p.2.size).sum := by
  induction factors with
  | nil => rfl
  | cons p factors ih => rw [factorsSize, ih]; rfl

theorem summandsSize_eq (summands : List (Expr × Num)) :
    summandsSize summands = (summands.map fun p => p.1.size).sum := by
  induction summands with
  | nil => rfl
  | cons p summands ih => rw [summandsSize, ih]; rfl

theorem size_congr {a b : Expr} (h : a.beq b = true) : a.size = b.size := by
  induction a generalizing b with
  | num n => cases b <;> first | rfl | simp [beq] at h
  | var name => cases b <;> first | rfl | simp [beq] at h
  | power age x y ihx ihy =>
    cases b with
    | power age' x' y' =>
      rw [beq, Bool.and_eq_true] at h
      rw [size, size, ihx h.1, ihy h.2]
    | _ => simp [beq] at h
  | product age c factors ih =>
    cases b with
    | product age' c' others =>
      rw [beq, Bool.and_eq_true] at h
      have hperm := factorsMatch_map (f := fun p => p.1.size + p.2.size)
        (fun p hp q h₁ h₂ => by rw [(ih p hp).1 h₁, (ih p hp).2 h₂]) h.2
      rw [size, size, factorsSize_eq, factorsSize_eq, hperm.sum_nat]
    | _ => simp [beq] at h
  | sum age c summands ih =>
    cases b with
    | sum age' c' others =>
      rw [beq, Bool.and_eq_true] at h
      have hperm := summandsMatch_map (f := fun p => p.1.size)
        (fun p hp q h₁ _ => by rw [ih p hp h₁]) h.2
      rw [size, size, summandsSize_eq, summandsSize_eq, hperm.sum_nat]
    | _ => simp [beq] at h

end ExactAlgebra.Expr
