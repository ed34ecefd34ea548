import ExactAlgebra.Proofs.Grammar.Promises
import ExactAlgebra.Proofs.Grammar.Refinement
import ExactAlgebra.Proofs.Printed
import ExactAlgebra.Proofs.Written.Words

/-!
# Heights

The limit on nesting bounds the brackets of a text and the height of what it is parsed to.  A
printed expression needs no more brackets than it has levels.

* `height_congr`: equal expressions have the same height.
* `shallow`: the brackets of a printed expression are nested no deeper than its height.
* `parse_height`: a parsed expression is within the limit.
-/

namespace ExactAlgebra

open Build Passes

namespace Expr

/-! ## Heights of expressions -/

theorem factorsHeight_eq (factors : List (Expr × Expr)) :
    factorsHeight factors = (factors.map fun p => max p.1.height p.2.height).foldr max 0 := by
  induction factors with
  | nil => rfl
  | cons p factors ih => rw [factorsHeight, ih]; rfl

theorem summandsHeight_eq (summands : List (Expr × Num)) :
    summandsHeight summands = (summands.map fun p => p.1.height).foldr max 0 := by
  induction summands with
  | nil => rfl
  | cons p summands ih => rw [summandsHeight, ih]; rfl

theorem le_factorsHeight {factors : List (Expr × Expr)} {p : Expr × Expr} (h : p ∈ factors) :
    max p.1.height p.2.height ≤ factorsHeight factors := by
  induction factors with
  | nil => exact nomatch h
  | cons q factors ih =>
    rw [factorsHeight]
    rcases List.mem_cons.mp h with rfl | h
    · exact Nat.le_max_left _ _
    · exact (ih h).trans (Nat.le_max_right _ _)

theorem le_summandsHeight {summands : List (Expr × Num)} {p : Expr × Num} (h : p ∈ summands) :
    p.1.height ≤ summandsHeight summands := by
  induction summands with
  | nil => exact nomatch h
  | cons q summands ih =>
    rw [summandsHeight]
    rcases List.mem_cons.mp h with rfl | h
    · exact Nat.le_max_left _ _
    · exact (ih h).trans (Nat.le_max_right _ _)

/-- Equal expressions have the same height. -/
theorem height_congr {a b : Expr} (h : a.beq b = true) : a.height = b.height := by
  induction a generalizing b with
  | num n => cases b <;> first | rfl | simp [beq] at h
  | var name => cases b <;> first | rfl | simp [beq] at h
  | power age x y ihx ihy =>
    cases b with
    | power age' x' y' =>
      rw [beq, Bool.and_eq_true] at h
      rw [height, height, ihx h.1, ihy h.2]
    | _ => simp [beq] at h
  | product age c factors ih =>
    cases b with
    | product age' c' others =>
      rw [beq, Bool.and_eq_true] at h
      have hperm := factorsMatch_map (f := fun p => max p.1.height p.2.height)
        (fun p hp q h₁ h₂ => by rw [(ih p hp).1 h₁, (ih p hp).2 h₂]) h.2
      rw [height, height, factorsHeight_eq, factorsHeight_eq, hperm.foldr_eq]
    | _ => simp [beq] at h
  | sum age c summands ih =>
    cases b with
    | sum age' c' others =>
      rw [beq, Bool.and_eq_true] at h
      have hperm := summandsMatch_map (f := fun p => p.1.height)
        (fun p hp q h₁ _ => by rw [ih p hp h₁]) h.2
      rw [height, height, summandsHeight_eq, summandsHeight_eq, hperm.foldr_eq]
    | _ => simp [beq] at h

end Expr

/-! ## Nesting of printed trees -/

namespace Grammar

theorem nesting_natural (n : ℕ) : (natural n).nesting = 0 := by
  rw [natural, Primary.nesting]

theorem nesting_quotient (q : ℚ) : (quotient q).nesting = 0 := by
  rw [quotient]
  split
  · rw [Term.nesting, Factor.nesting, nesting_natural]
  · rw [Term.nesting, Term.nesting, Factor.nesting, Factor.nesting, nesting_natural,
      nesting_natural]
    rfl

theorem nesting_magnitude (q : ℚ) : (magnitude q).nesting ≤ 1 := by
  rw [magnitude]
  split
  · rw [nesting_natural]
    exact Nat.zero_le 1
  · rw [Primary.nesting, Tree.nesting, nesting_quotient]

theorem nesting_leading {q : ℚ} {f : Factor (Primary Atom)} (h : f ∈ leading q) :
    f.nesting ≤ 1 := by
  rw [leading] at h
  split at h
  · cases h
  · rw [List.mem_singleton.mp h, Factor.nesting]
    exact nesting_magnitude q

theorem nesting_ofFactors {fs : List (Factor (Primary Atom))} {k : ℕ}
    (h : ∀ f ∈ fs, f.nesting ≤ k) : (Term.ofFactors fs).nesting ≤ k := by
  have hfold : ∀ (fs : List (Factor (Primary Atom))) (t : Term (Factor (Primary Atom))),
      (∀ f ∈ fs, f.nesting ≤ k) → t.nesting ≤ k →
      (fs.foldl (fun t f => .multiply t false f) t).nesting ≤ k := by
    intro fs
    induction fs with
    | nil => exact fun _ _ ht => ht
    | cons f fs ih =>
      intro t hf ht
      rw [List.forall_mem_cons] at hf
      exact ih _ hf.2 (by rw [Term.nesting]; exact Nat.max_le.mpr ⟨ht, hf.1⟩)
  cases fs with
  | nil =>
    rw [Term.ofFactors, Term.nesting, Factor.nesting, nesting_natural]
    exact Nat.zero_le k
  | cons f fs =>
    rw [List.forall_mem_cons] at h
    exact hfold fs _ h.2 (by rw [Term.nesting]; exact h.1)

theorem nesting_ofTerms {ts : List (Bool × Term (Factor (Primary Atom)))} {k : ℕ}
    (h : ∀ p ∈ ts, p.2.nesting ≤ k) : Tree.nesting (Tree.ofTerms ts) ≤ k := by
  have hfold : ∀ (ts : List (Bool × Term (Factor (Primary Atom)))) (s : Tree Atom),
      (∀ p ∈ ts, p.2.nesting ≤ k) → Tree.nesting s ≤ k →
      Tree.nesting (ts.foldl (fun s p => .add s (signIf p.1) p.2) s) ≤ k := by
    intro ts
    induction ts with
    | nil => exact fun _ _ hs => hs
    | cons p ts ih =>
      intro s hp hs
      rw [List.forall_mem_cons] at hp
      exact ih _ hp.2 (by rw [Tree.nesting]; exact Nat.max_le.mpr ⟨hs, hp.1⟩)
  cases ts with
  | nil =>
    rw [Tree.ofTerms, Tree.nesting, Term.nesting, Factor.nesting, nesting_natural]
    exact Nat.zero_le k
  | cons p ts =>
    rw [List.forall_mem_cons] at h
    exact hfold ts _ h.2 (by rw [Tree.nesting]; exact h.1)

end Grammar

open Grammar

namespace Expr

theorem nesting_letter (name : String) : (letter name).nesting = 0 := by
  rw [letter, Primary.nesting]

theorem nesting_basePrimary (b : Expr) (s : Grammar.Tree Atom) :
    (basePrimary b s).nesting ≤ Tree.nesting s + 1 := by
  unfold basePrimary
  split
  · rw [nesting_letter]
    exact Nat.zero_le _
  · split
    · rw [nesting_natural]
      exact Nat.zero_le _
    · rw [Primary.nesting]
  · rw [Primary.nesting]

theorem nesting_exponentFactor (m : Markup) (e : Expr) (s : Grammar.Tree Atom) :
    (exponentFactor m e s).2.nesting ≤ Tree.nesting s + 1 := by
  unfold exponentFactor
  split
  · rw [Factor.nesting, nesting_letter]
    exact Nat.zero_le _
  · split
    · rw [Factor.nesting, nesting_natural]
      exact Nat.zero_le _
    · rw [Factor.nesting, Primary.nesting]
  · rw [Factor.nesting, Primary.nesting]

theorem nesting_powerFactor (m : Markup) (b e : Expr) (base exponent : Grammar.Tree Atom) :
    (powerFactor m b e base exponent).nesting ≤
      1 + max (Tree.nesting base) (Tree.nesting exponent) := by
  have hbase := nesting_basePrimary b base
  have hexponent := nesting_exponentFactor m e exponent
  rw [powerFactor, Factor.nesting]
  omega

/-- The brackets of the printed forms of an expression are nested no deeper than its height, and no
deeper than the height of a node around it where it is printed as factors. -/
def Shallow (e : Expr) : Prop :=
  Tree.nesting (e.tree .text) ≤ e.height ∧ ∀ f ∈ e.chain .text, f.nesting ≤ e.height + 1

theorem nesting_entries {factors : List (Expr × Expr)}
    (h : ∀ p ∈ factors, p.1.Shallow ∧ p.2.Shallow) :
    ∀ f ∈ entries .text factors, f.nesting ≤ 1 + factorsHeight factors := by
  induction factors with
  | nil => rw [entries]; exact List.forall_mem_nil _
  | cons p factors ih =>
    obtain ⟨b, e⟩ := p
    rw [List.forall_mem_cons] at h
    obtain ⟨⟨⟨hb, hchain⟩, he, -⟩, hfactors⟩ := h
    dsimp only at hb hchain he
    rw [entries, factorsHeight, List.forall_mem_append]
    refine ⟨?_, fun f hf => (ih hfactors f hf).trans (by omega)⟩
    split
    · split
      · refine List.forall_mem_singleton.mpr ?_
        rw [Factor.nesting, Primary.nesting]
        omega
      · exact fun f hf => (hchain f hf).trans (by omega)
    · refine List.forall_mem_singleton.mpr ((nesting_powerFactor _ _ _ _ _).trans ?_)
      omega

theorem nesting_terms {summands : List (Expr × Num)} (h : ∀ p ∈ summands, p.1.Shallow) :
    ∀ p ∈ terms .text summands, p.2.nesting ≤ 1 + summandsHeight summands := by
  induction summands with
  | nil => rw [terms]; exact List.forall_mem_nil _
  | cons p summands ih =>
    obtain ⟨t, c⟩ := p
    rw [List.forall_mem_cons] at h
    rw [terms, summandsHeight, List.forall_mem_cons]
    refine ⟨nesting_ofFactors fun f hf => ?_, fun p hp => (ih h.2 p hp).trans (by omega)⟩
    rcases List.mem_append.mp hf with hf | hf
    · exact (nesting_leading hf).trans (by omega)
    · exact (h.1.2 f hf).trans (by dsimp only; omega)

theorem nesting_constantTerm (c : Num) : ∀ p ∈ constantTerm .text c, p.2.nesting = 0 := by
  intro p hp
  rw [constantTerm] at hp
  split at hp
  · cases hp
  · rw [List.mem_singleton.mp hp, number, nesting_quotient]

/-- **The brackets of a printed expression are nested no deeper than its height.** -/
theorem shallow (e : Expr) : e.Shallow := by
  induction e with
  | num n =>
    refine ⟨?_, ?_⟩
    · rw [tree, number, Tree.nesting, nesting_quotient]
      exact Nat.zero_le _
    · rw [chain]
      refine List.forall_mem_singleton.mpr ?_
      rw [Factor.nesting]
      exact nesting_magnitude n.value
  | var name =>
    refine ⟨?_, ?_⟩
    · rw [tree, Tree.nesting, Term.nesting, Factor.nesting, nesting_letter]
      exact Nat.zero_le _
    · rw [chain]
      refine List.forall_mem_singleton.mpr ?_
      rw [Factor.nesting, nesting_letter]
      exact Nat.zero_le _
  | power age b e hb he =>
    have hfactor := nesting_powerFactor .text b e (b.tree .text) (e.tree .text)
    have hmax := max_le_max hb.1 he.1
    refine ⟨?_, ?_⟩
    · rw [tree, Tree.nesting, Term.nesting, height]
      omega
    · rw [chain, height]
      refine List.forall_mem_singleton.mpr ?_
      omega
  | product age c factors ih =>
    have hfactors : ∀ f ∈ leading c.value ++ entries .text factors,
        f.nesting ≤ 1 + factorsHeight factors := by
      refine List.forall_mem_append.mpr ⟨fun f hf => ?_, nesting_entries ih⟩
      exact (nesting_leading hf).trans (Nat.le_add_right 1 _)
    refine ⟨?_, ?_⟩
    · rw [tree, Tree.nesting, height]
      exact nesting_ofFactors hfactors
    · rw [chain, height]
      exact fun f hf => (hfactors f hf).trans (Nat.le_succ _)
  | sum age c summands ih =>
    have hterms : Tree.nesting (Tree.ofTerms (terms .text summands ++ constantTerm .text c)) ≤
        1 + summandsHeight summands := by
      refine nesting_ofTerms (List.forall_mem_append.mpr ⟨nesting_terms ih, fun p hp => ?_⟩)
      rw [nesting_constantTerm c p hp]
      exact Nat.zero_le _
    refine ⟨?_, ?_⟩
    · rw [tree, height]
      exact hterms
    · rw [chain, height]
      refine List.forall_mem_singleton.mpr ?_
      rw [Factor.nesting, Primary.nesting]
      omega

end Expr

namespace Grammar

/-! ## Heights of parsed expressions -/

/-- What the check of the limit lets pass is within the limit. -/
theorem checkLevels_le (source : String) (limit : Int) (levels : Nat) :
    Ensures (checkLevels source limit levels) (fun _ => (levels : Int) ≤ limit) fun _ => True :=
  .ite (fun _ => .throw trivial) fun h => .pure (by omega)

/-- What is within the limit passes the check. -/
theorem checkLevels_passes {source : String} {limit : Int} {levels : Nat}
    (h : (levels : Int) ≤ limit) {F : Fault → Prop} :
    Ensures (checkLevels source limit levels) (fun _ => True) F :=
  .ite (fun h' => absurd h (by omega)) fun _ => .pure trivial

/-- **A parsed expression is no higher than the limit.** -/
theorem parse_height (limit : Int) (source : String) :
    Ensures (Expr.parse limit source) (fun e => (e.height : Int) ≤ limit) fun _ => True := by
  rcases htokens : tokenize source with fault | tokens
  · rw [Expr.parse, htokens]
    exact .throw trivial
  · obtain ⟨s, rfl⟩ := exists_tree_of_tokenize htokens
    rw [parse_eq_actUnder htokens]
    exact (ensures_true _).bind fun _ _ => (ensures_true _).bind fun _ _ =>
      (ensures_true _).bind fun _ _ => (ensures_true _).bind fun _ _ =>
        (ensures_true _).bind fun _ _ => (checkLevels_le _ _ _).bind fun _ h => .pure h

end Grammar

end ExactAlgebra
