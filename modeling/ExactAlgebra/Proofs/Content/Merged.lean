import ExactAlgebra.Proofs.Content

/-!
# Merged powers

The constructions know a power among the factors of a product, and enter its base with its exponent.
They do so when the factor is absorbed; an entry can come to this form later, when the exponents of
a power that is a base itself cancel down to one.  An expression is merged if no product in it has
such an entry.

* `Merged`: no entry of a product is a symbolic power with the exponent one.
* `Merged.congr`: equal expressions are merged alike.
* `Entry`, `Entries`: what the powers of merged canonical expressions have in common.
* `Merged.of_powers`: a canonical expression with such powers is merged.
-/

namespace ExactAlgebra.Expr

/-- A power of what is no number. -/
def isSymbolicPower : Expr → Bool
  | .power _ b _ => !b.isNum
  | _ => false

theorem isSymbolicPower_congr {a b : Expr} (h : a.beq b = true) :
    a.isSymbolicPower = b.isSymbolicPower := by
  cases a <;> cases b <;> simp only [beq, Bool.and_eq_true, Bool.false_eq_true] at h <;> try rfl
  rw [isSymbolicPower, isSymbolicPower, isNum_congr h.1]

/-- No entry of a product in the expression is a symbolic power with the exponent one. -/
inductive Merged : Expr → Prop where
  | num (n : Num) : Merged (.num n)
  | var (name : String) : Merged (.var name)
  | power (age : Nat) {base exponent : Expr} (merged_base : Merged base)
    (merged_exponent : Merged exponent) : Merged (.power age base exponent)
  | product (age : Nat) {coefficient : Num} {factors : List (Expr × Expr)}
    (merged_base : ∀ p ∈ factors, Merged p.1) (merged_exponent : ∀ p ∈ factors, Merged p.2)
    (power : ∀ p ∈ factors, p.2.isOne = true → p.1.isSymbolicPower = false) :
    Merged (.product age coefficient factors)
  | sum (age : Nat) {constant : Num} {summands : List (Expr × Num)}
    (merged_term : ∀ p ∈ summands, Merged p.1) : Merged (.sum age constant summands)

/-! ## Equal expressions have equal entries -/

theorem exists_of_mem_factorsFingerprint {factors : List (Expr × Expr)} {b e : Expr}
    (h : (b.fingerprint, e.fingerprint) ∈ factorsFingerprint factors) :
    ∃ p ∈ factors, p.1.beq b = true ∧ p.2.beq e = true := by
  rw [factorsFingerprint_eq, Multiset.mem_coe] at h
  obtain ⟨p, hp, h⟩ := List.mem_map.mp h
  rw [Prod.mk.injEq] at h
  exact ⟨p, hp, (beq_iff _ _).mpr h.1, (beq_iff _ _).mpr h.2⟩

theorem mem_factorsFingerprint {factors : List (Expr × Expr)} {p : Expr × Expr} (h : p ∈ factors) :
    (p.1.fingerprint, p.2.fingerprint) ∈ factorsFingerprint factors := by
  rw [factorsFingerprint_eq, Multiset.mem_coe]
  exact List.mem_map_of_mem h

/-- Equal products have equal entries. -/
theorem exists_factor_of_beq {age age' : Nat} {c c' : Num} {factors others : List (Expr × Expr)}
    (h : (Expr.product age c factors).beq (.product age' c' others) = true) :
    ∀ q ∈ others, ∃ p ∈ factors, p.1.beq q.1 = true ∧ p.2.beq q.2 = true := by
  have hf : factorsFingerprint factors = factorsFingerprint others := powers_congr h
  exact fun q hq => exists_of_mem_factorsFingerprint (hf ▸ mem_factorsFingerprint hq)

/-- Equal sums have equal entries. -/
theorem exists_summand_of_beq {age age' : Nat} {c c' : Num} {summands others : List (Expr × Num)}
    (h : (Expr.sum age c summands).beq (.sum age' c' others) = true) :
    ∀ q ∈ others, ∃ p ∈ summands, p.1.beq q.1 = true ∧ p.2.value = q.2.value := by
  rw [beq, Bool.and_eq_true] at h
  have hperm := summandsMatch_map (f := fun p => (p.1.fingerprint, p.2.value))
    (fun p _ q ht hc => by rw [(beq_iff _ _).mp ht, hc]) h.2
  intro q hq
  obtain ⟨p, hp, hpq⟩ := List.mem_map.mp (hperm.mem_iff.mp (List.mem_map_of_mem hq))
  rw [Prod.mk.injEq] at hpq
  exact ⟨p, hp, (beq_iff _ _).mpr hpq.1, hpq.2⟩

/-- **Equal expressions are merged alike.** -/
theorem Merged.congr {a b : Expr} (ha : a.Merged) (h : a.beq b = true) : b.Merged := by
  induction ha generalizing b with
  | num n =>
    cases b with
    | num m => exact .num m
    | _ => simp [beq] at h
  | var name =>
    cases b with
    | var name' => exact .var name'
    | _ => simp [beq] at h
  | power age _ _ ihb ihe =>
    cases b with
    | power age' b e =>
      rw [beq, Bool.and_eq_true] at h
      exact .power age' (ihb h.1) (ihe h.2)
    | _ => simp [beq] at h
  | product age _ _ power ihb ihe =>
    cases b with
    | product age' c' others =>
      have hmatch := exists_factor_of_beq h
      refine .product age' (fun q hq => ?_) (fun q hq => ?_) fun q hq h1 => ?_
      · obtain ⟨p, hp, hb, -⟩ := hmatch q hq
        exact ihb p hp hb
      · obtain ⟨p, hp, -, he⟩ := hmatch q hq
        exact ihe p hp he
      · obtain ⟨p, hp, hb, he⟩ := hmatch q hq
        rw [← isSymbolicPower_congr hb]
        exact power p hp (isOne_congr he ▸ h1)
    | _ => simp [beq] at h
  | sum age _ ih =>
    cases b with
    | sum age' c' others =>
      refine .sum age' fun q hq => ?_
      obtain ⟨p, hp, ht, -⟩ := exists_summand_of_beq h q hq
      exact ih p hp ht
    | _ => simp [beq] at h

/-! ## Entries -/

structure Entry (base exponent : Expr) : Prop where
  merged_base : base.Merged
  merged_exponent : exponent.Merged
  base_not_num : base.isNum = false
  exponent_ne_zero : exponent.isZero = false
  /-- A product or a symbolic power would have been merged. -/
  unmerged : exponent.isOne = true → base.isProduct = false ∧ base.isSymbolicPower = false

theorem Entry.congr {b b' e e' : Expr} (h : Entry b e) (hb : b.beq b' = true)
    (he : e.beq e' = true) : Entry b' e' where
  merged_base := h.merged_base.congr hb
  merged_exponent := h.merged_exponent.congr he
  base_not_num := isNum_congr hb ▸ h.base_not_num
  exponent_ne_zero := isZero_congr he ▸ h.exponent_ne_zero
  unmerged h1 := by
    rw [← isProduct_congr hb, ← isSymbolicPower_congr hb]
    exact h.unmerged (isOne_congr he ▸ h1)

def Entries (M : Multiset (ℕ × ℕ)) : Prop :=
  ∀ b e : Expr, (b.fingerprint, e.fingerprint) ∈ M → Entry b e

theorem Entries.zero : Entries 0 := fun _ _ h => absurd h (Multiset.notMem_zero _)

theorem Entry.singleton {b e : Expr} (h : Entry b e) :
    Entries {(b.fingerprint, e.fingerprint)} := by
  intro b' e' hmem
  rw [Multiset.mem_singleton, Prod.mk.injEq] at hmem
  exact h.congr ((beq_iff _ _).mpr hmem.1.symm) ((beq_iff _ _).mpr hmem.2.symm)

theorem Entries.add {M N : Multiset (ℕ × ℕ)} (hM : Entries M) (hN : Entries N) : Entries (M + N) :=
  fun b e h => (Multiset.mem_add.mp h).elim (hM b e) (hN b e)

theorem Entries.sum {xs : List Expr} (h : ∀ x ∈ xs, Entries x.powers) :
    Entries (xs.map powers).sum := by
  induction xs with
  | nil => exact Entries.zero
  | cons x xs ih =>
    rw [List.forall_mem_cons] at h
    rw [List.map_cons, List.sum_cons]
    exact h.1.add (ih h.2)

/-- A merged expression that is no number may be an entry by itself, unless it has to be merged. -/
theorem Merged.entry {e : Expr} (h : e.Merged) (hn : e.isNum = false) (hp : e.isProduct = false)
    (hs : e.isSymbolicPower = false) : Entry e .one :=
  ⟨h, .num _, hn, rfl, fun _ => ⟨hp, hs⟩⟩

/-- The powers of a merged canonical expression are entries. -/
theorem Merged.entries {e : Expr} (h : e.Merged) (hc : e.Canonical) : Entries e.powers := by
  cases h with
  | num n => exact Entries.zero
  | var name => exact (Merged.entry (.var name) rfl rfl rfl).singleton
  | @power age b e hb he =>
    rw [powers]
    split
    next hn =>
      exact (Merged.entry (.power age hb he) rfl rfl (by rw [isSymbolicPower, hn]; rfl)).singleton
    next hn =>
      cases hc with
      | power _ _ _ form =>
        refine Entry.singleton ⟨hb, he, by simpa using hn, form.exponent_ne_zero, fun h1 => ?_⟩
        rw [form.exponent_ne_one] at h1
        cases h1
  | @product age c factors hb he hpower =>
    intro b' e' hmem
    obtain ⟨p, hp, hb', he'⟩ := exists_of_mem_factorsFingerprint hmem
    cases hc with
    | product _ _ _ _ form =>
      refine Entry.congr ⟨hb p hp, he p hp, form.base_not_num p hp, form.exponent_ne_zero p hp,
        fun h1 => ⟨?_, hpower p hp h1⟩⟩ hb' he'
      by_contra hprod
      rw [Bool.not_eq_false] at hprod
      rw [form.nested p hp hprod] at h1
      cases h1
  | sum age ht => exact (Merged.entry (.sum age ht) rfl rfl rfl).singleton

/-- A canonical expression with the powers of merged ones is merged. -/
theorem Merged.of_powers {e : Expr} (hc : e.Canonical) (h : Entries e.powers) : e.Merged := by
  cases hc with
  | num n _ => exact .num n
  | var name => exact .var name
  | @power age b e hb he form =>
    rw [powers] at h
    split at h
    · exact (h _ _ (Multiset.mem_singleton_self _)).merged_base
    · have hentry := h b e (Multiset.mem_singleton_self _)
      exact .power age hentry.merged_base hentry.merged_exponent
  | @product age c factors _ _ _ form =>
    have hentry : ∀ p ∈ factors, Entry p.1 p.2 := fun p hp => h _ _ (mem_factorsFingerprint hp)
    exact .product age (fun p hp => (hentry p hp).merged_base)
      (fun p hp => (hentry p hp).merged_exponent) fun p hp h1 => ((hentry p hp).unmerged h1).2
  | sum age _ _ _ form => exact (h _ _ (Multiset.mem_singleton_self _)).merged_base

/-! ## Stable expressions -/

/-- A canonical expression with all powers merged. -/
structure Stable (e : Expr) : Prop where
  canonical : e.Canonical
  merged : e.Merged

theorem Stable.num (n : Num) : (Expr.num n).Stable := ⟨.ofNum n, .num n⟩

theorem Stable.one : Expr.one.Stable := .num _

theorem Stable.entries {e : Expr} (h : e.Stable) : Entries e.powers := h.merged.entries h.canonical

/-- The expression is canonical and equal to another one. -/
def Copies (e r : Expr) : Prop := r.Canonical ∧ r.beq e = true

structure HasPowers (q : ℚ) (M : Multiset (ℕ × ℕ)) (r : Expr) : Prop where
  stable : r.Stable
  scale : r.scale = q
  powers : r.powers = M

structure HasContent (c : Content) (r : Expr) : Prop where
  stable : r.Stable
  content : r.content = c

theorem Copies.refl {e : Expr} (h : e.Canonical) : Copies e e := ⟨h, BEq.refl e⟩

theorem Copies.symm {e r : Expr} (h : Copies e r) : e.beq r = true :=
  BEq.symm (show (r == e) = true from h.2)

theorem Copies.stable {e r : Expr} (h : Copies e r) (hm : e.Merged) : r.Stable :=
  ⟨h.1, hm.congr h.symm⟩

theorem Copies.hasPowers {e r : Expr} (h : Copies e r) (hm : e.Merged) :
    HasPowers e.scale e.powers r :=
  ⟨h.stable hm, scale_congr h.2, powers_congr h.2⟩

theorem Copies.hasContent {e r : Expr} (h : Copies e r) (hm : e.Merged) : HasContent e.content r :=
  ⟨h.stable hm, content_congr h.2⟩

def powerList : Expr → List (Expr × Expr)
  | .num _ => []
  | .power age b e => if b.isNum then [(.power age b e, .one)] else [(b, e)]
  | .product _ _ factors => factors
  | e => [(e, .one)]

theorem powers_eq (e : Expr) : e.powers = factorsFingerprint e.powerList := by
  cases e with
  | power age b e =>
    rw [powers, powerList]
    split <;> rfl
  | _ => rfl

structure StableEntry (p : Expr × Expr) : Prop where
  base : p.1.Stable
  base_not_num : p.1.isNum = false
  exponent : p.2.Stable
  exponent_ne_zero : p.2.isZero = false

theorem Stable.powerList {e : Expr} (h : e.Stable) : ∀ p ∈ e.powerList, StableEntry p := by
  have hself : ∀ {x : Expr}, x.Stable → x.isNum = false →
      ∀ p ∈ [(x, Expr.one)], StableEntry p := fun hx hn p hp => by
    rw [List.mem_singleton.mp hp]
    exact ⟨hx, hn, .one, rfl⟩
  obtain ⟨hc, hm⟩ := h
  cases hc with
  | num n _ => exact List.forall_mem_nil _
  | var name => exact hself ⟨.var name, hm⟩ rfl
  | power age hb he form =>
    rw [Expr.powerList]
    split
    · exact hself ⟨.power age hb he form, hm⟩ rfl
    next hn =>
      cases hm with
      | power _ hmb hme =>
        rw [List.forall_mem_singleton]
        exact ⟨⟨hb, hmb⟩, by simpa using hn, ⟨he, hme⟩, form.exponent_ne_zero⟩
  | product age _ hb he form =>
    cases hm with
    | product _ hmb hme _ =>
      exact fun p hp => ⟨⟨hb p hp, hmb p hp⟩, form.base_not_num p hp, ⟨he p hp, hme p hp⟩,
        form.exponent_ne_zero p hp⟩
  | sum age hc ht hr form => exact hself ⟨.sum age hc ht hr form, hm⟩ rfl

end ExactAlgebra.Expr
