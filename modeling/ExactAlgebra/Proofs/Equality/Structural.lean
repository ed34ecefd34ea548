import ExactAlgebra.Proofs.Canonical.Obtainable
import ExactAlgebra.Proofs.Meaning.Worth

/-!
# What equality of expressions is

Equality takes equal entries out of lists, one after the other.  It is the same as two other things.
Two expressions are equal exactly when their trees are the same up to the order of the entries at
every level.  And where no two keys of a table are equal, as in every canonical expression, the
tables may as well be compared by looking up each key of the one in the other.

* `Expr.Reordered`: the same tree up to the order of entries.  `reordered_iff`: this is equality.
* `Expr.sameTable`: equality by looking up keys.  `sameTable_eq`: this is equality of canonical
  expressions, by the distinctness of their keys.
* `equality_structural`: equality of all expressions that the operations can return.
-/

namespace ExactAlgebra.Expr

/-! ## The same tree in another order -/

mutual

/-- The trees are the same up to the order of the entries of products and sums: the rational parts
have the same values and the variables have the same names. -/
inductive Reordered : Expr → Expr → Prop
  | num {n n' : Num} (h : n.value = n'.value) : Reordered (.num n) (.num n')
  | var (name : String) : Reordered (.var name) (.var name)
  | power {age age' : Nat} {b b' e e' : Expr} (hb : Reordered b b') (he : Reordered e e') :
    Reordered (.power age b e) (.power age' b' e')
  | product {age age' : Nat} {c c' : Num} {factors moved others : List (Expr × Expr)}
    (hc : c.value = c'.value) (hf : List.Forall₂ ReorderedFactor factors moved)
    (hperm : moved.Perm others) : Reordered (.product age c factors) (.product age' c' others)
  | sum {age age' : Nat} {c c' : Num} {summands moved others : List (Expr × Num)}
    (hc : c.value = c'.value) (hs : List.Forall₂ ReorderedSummand summands moved)
    (hperm : moved.Perm others) : Reordered (.sum age c summands) (.sum age' c' others)

inductive ReorderedFactor : Expr × Expr → Expr × Expr → Prop
  | mk {b b' e e' : Expr} (hb : Reordered b b') (he : Reordered e e') :
    ReorderedFactor (b, e) (b', e')

inductive ReorderedSummand : Expr × Num → Expr × Num → Prop
  | mk {t t' : Expr} {c c' : Num} (ht : Reordered t t') (hc : c.value = c'.value) :
    ReorderedSummand (t, c) (t', c')

end

/-- The entries that a comparison takes out are those of the other product in another order. -/
theorem factorsMatch_moved {R : Expr × Expr → Expr × Expr → Prop}
    {factors others : List (Expr × Expr)}
    (hR : ∀ p ∈ factors, ∀ q, p.1.beq q.1 = true → p.2.beq q.2 = true → R p q)
    (h : factorsMatch factors others = true) :
    ∃ moved, List.Forall₂ R factors moved ∧ moved.Perm others := by
  induction factors generalizing others with
  | nil =>
    rw [factorsMatch, List.isEmpty_iff] at h
    exact ⟨[], .nil, by rw [h]⟩
  | cons p factors ih =>
    obtain ⟨b, e⟩ := p
    rw [factorsMatch] at h
    rw [List.forall_mem_cons] at hR
    split at h
    next rest hr =>
      obtain ⟨q, l₁, l₂, hq, rfl, rfl⟩ := removeFirst?_eq_some hr
      rw [Bool.and_eq_true] at hq
      obtain ⟨moved, hmoved, hperm⟩ := ih hR.2 h
      refine ⟨q :: moved, .cons (hR.1 q hq.1 hq.2) hmoved, ?_⟩
      exact (hperm.cons q).trans List.perm_middle.symm
    next => exact absurd h Bool.false_ne_true

/-- The same for sums. -/
theorem summandsMatch_moved {R : Expr × Num → Expr × Num → Prop}
    {summands others : List (Expr × Num)}
    (hR : ∀ p ∈ summands, ∀ q, p.1.beq q.1 = true → p.2.value = q.2.value → R p q)
    (h : summandsMatch summands others = true) :
    ∃ moved, List.Forall₂ R summands moved ∧ moved.Perm others := by
  induction summands generalizing others with
  | nil =>
    rw [summandsMatch, List.isEmpty_iff] at h
    exact ⟨[], .nil, by rw [h]⟩
  | cons p summands ih =>
    obtain ⟨t, c⟩ := p
    rw [summandsMatch] at h
    rw [List.forall_mem_cons] at hR
    split at h
    next rest hr =>
      obtain ⟨q, l₁, l₂, hq, rfl, rfl⟩ := removeFirst?_eq_some hr
      rw [Bool.and_eq_true, Num.beq_iff] at hq
      obtain ⟨moved, hmoved, hperm⟩ := ih hR.2 h
      refine ⟨q :: moved, .cons (hR.1 q hq.1 hq.2) hmoved, ?_⟩
      exact (hperm.cons q).trans List.perm_middle.symm
    next => exact absurd h Bool.false_ne_true

theorem Reordered.of_beq {a b : Expr} (h : a.beq b = true) : Reordered a b := by
  induction a generalizing b with
  | num n =>
    cases b with
    | num m => exact .num (Num.beq_iff.mp h)
    | _ => simp [beq] at h
  | var name =>
    cases b with
    | var name' =>
      obtain rfl : name = name' := beq_iff_eq.mp h
      exact .var name
    | _ => simp [beq] at h
  | power age x y ihx ihy =>
    cases b with
    | power age' x' y' =>
      rw [beq, Bool.and_eq_true] at h
      exact .power (ihx h.1) (ihy h.2)
    | _ => simp [beq] at h
  | product age c factors ih =>
    cases b with
    | product age' c' others =>
      rw [beq, Bool.and_eq_true, Num.beq_iff] at h
      obtain ⟨moved, hmoved, hperm⟩ := factorsMatch_moved (R := ReorderedFactor)
        (fun p hp q h₁ h₂ => .mk ((ih p hp).1 h₁) ((ih p hp).2 h₂)) h.2
      exact .product h.1 hmoved hperm
    | _ => simp [beq] at h
  | sum age c summands ih =>
    cases b with
    | sum age' c' others =>
      rw [beq, Bool.and_eq_true, Num.beq_iff] at h
      obtain ⟨moved, hmoved, hperm⟩ := summandsMatch_moved (R := ReorderedSummand)
        (fun p hp q h₁ h₂ => .mk (ih p hp h₁) h₂) h.2
      exact .sum h.1 hmoved hperm
    | _ => simp [beq] at h

/-- No fingerprint depends on the order of entries. -/
theorem Reordered.fingerprint_eq {a b : Expr} (h : Reordered a b) :
    a.fingerprint = b.fingerprint := by
  induction a generalizing b with
  | num n => cases h with | num hn => rw [fingerprint, fingerprint, hn]
  | var name => cases h; rfl
  | power age x y ihx ihy =>
    cases h with
    | power hx hy => rw [fingerprint, fingerprint, ihx hx, ihy hy]
  | product age c factors ih =>
    cases h with
    | @product _ age' _ c' _ moved others hc hf hperm =>
      have hmap : factors.map (fun p => (p.1.fingerprint, p.2.fingerprint)) =
          moved.map (fun p => (p.1.fingerprint, p.2.fingerprint)) := by
        clear hperm
        induction hf with
        | nil => rfl
        | cons hpq _ ihl =>
          rw [List.forall_mem_cons] at ih
          cases hpq with
          | mk hb he => rw [List.map_cons, List.map_cons, ih.1.1 hb, ih.1.2 he, ihl ih.2]
      rw [fingerprint, fingerprint, factorsFingerprint_eq, factorsFingerprint_eq, hmap, hc,
        Multiset.coe_eq_coe.mpr (hperm.map _)]
  | sum age c summands ih =>
    cases h with
    | @sum _ age' _ c' _ moved others hc hs hperm =>
      have hmap : summands.map (fun p => (p.1.fingerprint, p.2.value)) =
          moved.map (fun p => (p.1.fingerprint, p.2.value)) := by
        clear hperm
        induction hs with
        | nil => rfl
        | cons hpq _ ihl =>
          rw [List.forall_mem_cons] at ih
          cases hpq with
          | mk ht hn => rw [List.map_cons, List.map_cons, ih.1 ht, hn, ihl ih.2]
      rw [fingerprint, fingerprint, summandsFingerprint_eq, summandsFingerprint_eq, hmap, hc,
        Multiset.coe_eq_coe.mpr (hperm.map _)]

/-- **Equality is equality of trees up to the order of entries.** -/
theorem reordered_iff {a b : Expr} : Reordered a b ↔ (a == b) = true :=
  ⟨fun h => eq_iff.mpr h.fingerprint_eq, .of_beq⟩

/-! ## Tables -/

mutual

/-- Equality with the entries of products and sums as tables: as many keys, and each key of the
first table found in the second one, with an equal amount. -/
def sameTable : Expr → Expr → Bool
  | .num a, .num b => a.value == b.value
  | .var a, .var b => a == b
  | .power _ b e, .power _ b' e' => b.sameTable b' && e.sameTable e'
  | .product _ c factors, .product _ c' others =>
    c.value == c'.value && (factors.length == others.length && factorsFound factors others)
  | .sum _ c summands, .sum _ c' others =>
    c.value == c'.value && (summands.length == others.length && summandsFound summands others)
  | _, _ => false

/-- The first entry for each base has an equal exponent. -/
def factorsFound : List (Expr × Expr) → List (Expr × Expr) → Bool
  | [], _ => true
  | (b, e) :: factors, others =>
    (others.find? fun q => b.sameTable q.1).any (fun q => e.sameTable q.2) &&
      factorsFound factors others

/-- The first entry for each term has a coefficient of the same value. -/
def summandsFound : List (Expr × Num) → List (Expr × Num) → Bool
  | [], _ => true
  | (t, c) :: summands, others =>
    (others.find? fun q => t.sameTable q.1).any (fun q => c.value == q.2.value) &&
      summandsFound summands others

end

/-- Where only one entry has the key, the first one with it is the one. -/
theorem any_find?_iff {α : Type} {key test : α → Bool} {l : List α}
    (h : l.Pairwise fun p q => key p = true → key q = false) :
    (l.find? key).any test = true ↔ ∃ q ∈ l, key q = true ∧ test q = true := by
  induction l with
  | nil => simp
  | cons p l ih =>
    rw [List.pairwise_cons] at h
    by_cases hp : key p = true
    · rw [List.find?_cons_of_pos hp, Option.any_some]
      constructor
      · intro ht
        exact ⟨p, List.mem_cons_self, hp, ht⟩
      · rintro ⟨q, hq, hkey, ht⟩
        rcases List.mem_cons.mp hq with rfl | hq
        · exact ht
        · rw [h.1 q hq hp] at hkey
          exact nomatch hkey
    · rw [List.find?_cons_of_neg hp, ih h.2]
      simp [hp]

/-- Lists without repetitions are the same up to order if they are equally long and the one is part
of the other. -/
theorem perm_iff_of_nodup {γ : Type} {l l' : List γ} (h : l.Nodup) :
    l.Perm l' ↔ l.length = l'.length ∧ ∀ x ∈ l, x ∈ l' := by
  constructor
  · intro hp
    exact ⟨hp.length_eq, fun x => hp.mem_iff.mp⟩
  · rintro ⟨hl, hs⟩
    exact (List.subperm_of_subset h hs).perm_of_length_le hl.ge

/-- Entries with different keys have different fingerprints. -/
theorem nodup_of_distinct {ν μ : Type} {g : ν → μ} {entries : List (Expr × ν)}
    (h : entries.Pairwise fun p q => (p.1 == q.1) = false) :
    (entries.map fun p => (p.1.fingerprint, g p.2)).Nodup := by
  rw [List.Nodup, List.pairwise_map]
  refine h.imp fun {p q} hpq he => ?_
  rw [eq_iff.mpr (congrArg Prod.fst he)] at hpq
  exact nomatch hpq

section Found

variable {ν : Type} {others : List (Expr × ν)} {b : Expr}

/-- A key is found where it stands, if the keys are distinct and looking up is equality. -/
theorem found_iff {test : Expr × ν → Bool}
    (hd : others.Pairwise fun p q => (p.1 == q.1) = false)
    (hb : ∀ q ∈ others, b.sameTable q.1 = b.beq q.1) :
    (others.find? fun q => b.sameTable q.1).any test = true ↔
      ∃ q ∈ others, b.beq q.1 = true ∧ test q = true := by
  have honce : others.Pairwise fun p q => b.sameTable p.1 = true → b.sameTable q.1 = false := by
    refine hd.imp_of_mem fun {p q} hp hq hpq hkey => ?_
    rw [hb p hp] at hkey
    rw [hb q hq, ← Bool.not_eq_true]
    intro hkey'
    have he : (p.1 == q.1) = true := BEq.trans (BEq.symm hkey) hkey'
    rw [hpq] at he
    exact nomatch he
  rw [any_find?_iff honce]
  exact exists_congr fun q => and_congr_right fun hq => by rw [hb q hq]

end Found

theorem factorsFound_iff {factors others : List (Expr × Expr)}
    (hd : others.Pairwise fun p q => (p.1 == q.1) = false)
    (hf : ∀ p ∈ factors, ∀ q ∈ others, p.1.sameTable q.1 = p.1.beq q.1 ∧
      p.2.sameTable q.2 = p.2.beq q.2) :
    factorsFound factors others = true ↔
      ∀ p ∈ factors, ∃ q ∈ others, p.1.beq q.1 = true ∧ p.2.beq q.2 = true := by
  induction factors with
  | nil => simp [factorsFound]
  | cons p factors ih =>
    obtain ⟨b, e⟩ := p
    rw [List.forall_mem_cons] at hf ⊢
    rw [factorsFound, Bool.and_eq_true, ih hf.2, found_iff hd fun q hq => (hf.1 q hq).1]
    refine and_congr_left fun _ => exists_congr fun q => and_congr_right fun hq => ?_
    rw [(hf.1 q hq).2]

theorem summandsFound_iff {summands others : List (Expr × Num)}
    (hd : others.Pairwise fun p q => (p.1 == q.1) = false)
    (hs : ∀ p ∈ summands, ∀ q ∈ others, p.1.sameTable q.1 = p.1.beq q.1) :
    summandsFound summands others = true ↔
      ∀ p ∈ summands, ∃ q ∈ others, p.1.beq q.1 = true ∧ p.2.value = q.2.value := by
  induction summands with
  | nil => simp [summandsFound]
  | cons p summands ih =>
    obtain ⟨t, c⟩ := p
    rw [List.forall_mem_cons] at hs ⊢
    rw [summandsFound, Bool.and_eq_true, ih hs.2, found_iff hd fun q hq => hs.1 q hq]
    simp only [beq_iff_eq]

/-- Products with distinct bases match if each base is found. -/
theorem factorsMatch_eq {factors others : List (Expr × Expr)}
    (hd : factors.Pairwise fun p q => (p.1 == q.1) = false)
    (hd' : others.Pairwise fun p q => (p.1 == q.1) = false)
    (hf : ∀ p ∈ factors, ∀ q ∈ others, p.1.sameTable q.1 = p.1.beq q.1 ∧
      p.2.sameTable q.2 = p.2.beq q.2) :
    (factors.length == others.length && factorsFound factors others) =
      factorsMatch factors others := by
  rw [Bool.eq_iff_iff, Bool.and_eq_true, beq_iff_eq, factorsFound_iff hd' hf,
    factorsMatch_iff fun p _ => ⟨beq_iff p.1, beq_iff p.2⟩, factorsFingerprint_eq,
    factorsFingerprint_eq, Multiset.coe_eq_coe, perm_iff_of_nodup (nodup_of_distinct hd),
    List.length_map, List.length_map, List.forall_mem_map]
  simp only [List.mem_map, Prod.mk.injEq, beq_iff]
  refine and_congr_right fun _ => forall₂_congr fun p _ => exists_congr fun q => ?_
  exact and_congr_right fun _ => and_congr eq_comm eq_comm

/-- Sums with distinct terms match if each term is found. -/
theorem summandsMatch_eq {summands others : List (Expr × Num)}
    (hd : summands.Pairwise fun p q => (p.1 == q.1) = false)
    (hd' : others.Pairwise fun p q => (p.1 == q.1) = false)
    (hs : ∀ p ∈ summands, ∀ q ∈ others, p.1.sameTable q.1 = p.1.beq q.1) :
    (summands.length == others.length && summandsFound summands others) =
      summandsMatch summands others := by
  rw [Bool.eq_iff_iff, Bool.and_eq_true, beq_iff_eq, summandsFound_iff hd' hs,
    summandsMatch_iff fun p _ => beq_iff p.1, summandsFingerprint_eq, summandsFingerprint_eq,
    Multiset.coe_eq_coe, perm_iff_of_nodup (nodup_of_distinct hd), List.length_map, List.length_map,
    List.forall_mem_map]
  simp only [List.mem_map, Prod.mk.injEq, beq_iff]
  refine and_congr_right fun _ => forall₂_congr fun p _ => exists_congr fun q => ?_
  exact and_congr_right fun _ => and_congr eq_comm eq_comm

/-- **Canonical expressions are equal iff their tables are.**  No two keys of them are equal, at any
level. -/
theorem sameTable_eq {a b : Expr} (ha : a.Canonical) (hb : b.Canonical) :
    a.sameTable b = (a == b) := by
  change a.sameTable b = a.beq b
  induction ha generalizing b with
  | num n h =>
    cases b with
    | num m => rw [sameTable, beq, Num.beq_eq]
    | _ => rw [sameTable, beq] <;> simp
  | var name => cases b <;> rw [sameTable, beq] <;> simp
  | power age _ _ _ ihx ihy =>
    cases hb with
    | power age' hx hy => rw [sameTable, beq, ihx hx, ihy hy]
    | _ => rw [sameTable, beq] <;> simp
  | product age _ _ _ form ihb ihe =>
    cases hb with
    | product age' _ hb he form' =>
      rw [sameTable, beq, Num.beq_eq, factorsMatch_eq form.distinct form'.distinct]
      intro p hp q hq
      exact ⟨ihb p hp (hb q hq), ihe p hp (he q hq)⟩
    | _ => rw [sameTable, beq] <;> simp
  | sum age _ _ _ form iht =>
    cases hb with
    | sum age' _ ht _ form' =>
      rw [sameTable, beq, Num.beq_eq, summandsMatch_eq form.distinct form'.distinct]
      intro p hp q hq
      exact iht p hp (ht q hq)
    | _ => rw [sameTable, beq] <;> simp

/-! ## Equality of what the operations return -/

/-- **Equality of expressions.**  On everything that the operations can return, equality is
reflexive, symmetric and transitive; it compares the entries of products and sums as tables; two
expressions are equal iff their trees are the same up to the order of entries at every level; and
equal expressions are worth the same rational, or none, whatever the variables stand for. -/
theorem equality_structural {a b c : Expr} (ha : Obtainable a) (hb : Obtainable b)
    (hc : Obtainable c) :
    (a == a) = true ∧ ((a == b) = true → (b == a) = true) ∧
    ((a == b) = true → (b == c) = true → (a == c) = true) ∧
    a.sameTable b = (a == b) ∧ b.sameTable c = (b == c) ∧
    ((a == b) = true ↔ Reordered a b) ∧
    ((a == b) = true → ∀ ρ : String → ℚ, (a.worth ρ).rational? = (b.worth ρ).rational?) := by
  have ha := ha.canonical
  have hb := hb.canonical
  have hc := hc.canonical
  refine ⟨BEq.rfl, BEq.symm, BEq.trans, sameTable_eq ha hb, sameTable_eq hb hc,
    reordered_iff.symm, fun h ρ => ?_⟩
  rw [rational?_worth, rational?_worth, denote_congr h]

/-- The sum of squares that `x^2+y^2` is parsed to. -/
def squaresForward : Expr :=
  .sum 11 ⟨0, 0⟩
    [(.power 7 (.var "y") (.num ⟨2, 6⟩), ⟨1, 10⟩), (.power 8 (.var "x") (.num ⟨2, 5⟩), ⟨1, 9⟩)]

/-- The sum of squares that `y^2+x^2` is parsed to. -/
def squaresBackward : Expr :=
  .sum 11 ⟨0, 0⟩
    [(.power 7 (.var "x") (.num ⟨2, 6⟩), ⟨1, 10⟩), (.power 8 (.var "y") (.num ⟨2, 5⟩), ⟨1, 9⟩)]

set_option maxRecDepth 1024 in
/-- The entries of the two sums stand in different orders. -/
theorem equality_squares : Reordered squaresForward squaresBackward ∧
    squaresForward.sameTable squaresBackward = true ∧ ∀ ρ : String → ℚ,
      (squaresForward.worth ρ).rational? = (squaresBackward.worth ρ).rational? := by
  have hforward : Obtainable squaresForward := by
    have h : (parse 200 "x^2+y^2" .initial).1 = .ok squaresForward := by cbv
    exact .parse h
  have hbackward : Obtainable squaresBackward := by
    have h : (parse 200 "y^2+x^2" .initial).1 = .ok squaresBackward := by cbv
    exact .parse h
  have hbeq : (squaresForward == squaresBackward) = true := by decide +kernel
  obtain ⟨-, -, -, htable, -, hreordered, hworth⟩ :=
    equality_structural hforward hbackward hforward
  exact ⟨hreordered.mp hbeq, htable.trans hbeq, hworth hbeq⟩

end ExactAlgebra.Expr
