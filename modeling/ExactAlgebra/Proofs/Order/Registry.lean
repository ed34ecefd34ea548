import ExactAlgebra.Proofs.Ages.Coupling
import ExactAlgebra.Proofs.Canonical.Obtainable
import ExactAlgebra.Proofs.Order

/-!
# Known nodes

Products and sums are sorted by the ages of their entries, among other things.  That no two entries
are level rests on the history of all of them: unequal nodes are of different ages because each
construction draws an age of its own.  A registry holds the nodes that have been built so far, and
grows with every construction.

* `ProductDraft.tally`, `SumDraft.tally`: what a product or a sum is made of in the end.
* `Expr.Tallied`: the entries of a node are those of the tally of a run that returned it, in order.
* `Registry`: nodes that are canonical and tallied, no two of them of one age.
* `Build.Registers R m P`: if all known nodes are older than the next one, then they are so after
  `m`, with the new nodes among them, and what is returned satisfies `P`.
* `ofPower_builds`, `separate_registers`: powers and the parts of products.
-/

namespace ExactAlgebra

open Build ExactAlgebra.Expr

/-! ## Tallies -/

/-- The draft of a product when nothing is left to merge. -/
def ProductDraft.tally (sum : SignedTerms → Build Expr) (factors divisors : List Expr) :
    Build ProductDraft := do
  let d ← ProductDraft.empty.absorbAll sum factors divisors
  d.flatten sum d.rounds

def SumDraft.tally (terms : SignedTerms) : Build SumDraft := do
  let d ← SumDraft.empty.absorbAll terms
  d.flatten d.rounds

/-- A run of the construction of a product has ended with this tally and has returned `r`. -/
def ProductDraft.Returns (d : ProductDraft) (r : Expr) : Prop :=
  ∃ (level : Nat) (factors divisors : List Expr) (s s' t : Supply),
    ProductDraft.tally (sumAt level) factors divisors s = (.ok d, s') ∧ d.collapse s' = (.ok r, t)

def SumDraft.Returns (d : SumDraft) (r : Expr) : Prop :=
  ∃ (level : Nat) (terms : SignedTerms) (s s' t : Supply),
    SumDraft.tally terms s = (.ok d, s') ∧
      d.collapse (fun factors => productWith (sumAt level) factors []) s' = (.ok r, t)

namespace Expr

theorem productWith_eq_tally (sum : SignedTerms → Build Expr) (factors divisors : List Expr) :
    productWith sum factors divisors = (do
      (← ProductDraft.tally sum factors divisors).collapse) := by
  simp only [productWith, ProductDraft.tally, ProductDraft.finish, bind_assoc]

theorem sumWith_eq_tally (product : List Expr → Build Expr) (terms : SignedTerms) :
    sumWith product terms = (do (← SumDraft.tally terms).collapse product) := by
  simp only [sumWith, SumDraft.tally, SumDraft.finish, bind_assoc]

/-- The entries of a product or a sum are those of the final tally of a run that has returned it, in
the order of their keys.  What is left of a product without its coefficient keeps its entries. -/
def Tallied : Expr → Prop
  | .product age c factors => ∃ (d : ProductDraft) (built : Nat),
    d.Returns (.product built d.coefficient factors) ∧
      (age = built ∧ c = d.coefficient ∨ c = .one) ∧ d.exponents.InOrder compareBases factors
  | .sum age constant summands => ∃ d : SumDraft,
    d.Returns (.sum age constant summands) ∧ d.coefficients.InOrder compareTerms summands
  | _ => True

/-- A number or a variable. -/
def isLeaf : Expr → Bool
  | .num _ => true
  | .var _ => true
  | _ => false

variable {e : Expr}

theorem Canonical.of_isLeaf (h : e.isLeaf = true) : e.Canonical := by
  cases e with
  | num n => exact .ofNum n
  | var name => exact .var name
  | _ => exact nomatch h

theorem Tallied.of_isLeaf (h : e.isLeaf = true) : e.Tallied := by
  cases e with
  | num n => exact trivial
  | var name => exact trivial
  | _ => exact nomatch h

theorem parts_of_isLeaf (h : e.isLeaf = true) : e.parts = [] := by
  cases e with
  | num n => rfl
  | var name => rfl
  | _ => exact nomatch h

end Expr

/-! ## Registries -/

/-- The nodes that are known: all leaves, and composite nodes with all their parts, in canonical
form and with tallied entries, of which no two are of one age. -/
structure Registry where
  nodes : Set Expr
  leaf {e : Expr} : e.isLeaf = true → e ∈ nodes
  part {e d : Expr} : e ∈ nodes → d ∈ e.parts → d ∈ nodes
  unique {a b : Expr} : a ∈ nodes → b ∈ nodes → a.isLeaf = false → b.isLeaf = false →
    a.age = b.age → a = b
  canonical {e : Expr} : e ∈ nodes → e.Canonical
  tallied {e : Expr} : e ∈ nodes → e.Tallied

namespace Registry

/-- A later registry knows all nodes of an earlier one. -/
instance : Preorder Registry := Preorder.lift Registry.nodes

variable {R R' : Registry}

def leaves : Registry where
  nodes := {e | e.isLeaf = true}
  leaf := id
  part he hd := by
    rw [parts_of_isLeaf he] at hd
    exact absurd hd List.not_mem_nil
  unique ha _ hn _ := absurd (hn.symm.trans ha) Bool.false_ne_true
  canonical := .of_isLeaf
  tallied := .of_isLeaf

/-- The registry with a node that is younger than all others. -/
def insert (R : Registry) (e : Expr) (hage : ∀ a ∈ R.nodes, a.isLeaf = false → a.age < e.age)
    (hparts : ∀ d ∈ e.parts, d ∈ R.nodes) (hc : e.Canonical) (ht : e.Tallied) : Registry where
  nodes := {a | a = e ∨ a ∈ R.nodes}
  leaf h := .inr (R.leaf h)
  part := by
    rintro a d (rfl | ha) hd
    · exact .inr (hparts d hd)
    · exact .inr (R.part ha hd)
  unique := by
    rintro a b (rfl | ha) (rfl | hb) hna hnb h
    · rfl
    · exact absurd h (hage b hb hnb).ne'
    · exact absurd h (hage a ha hna).ne
    · exact R.unique ha hb hna hnb h
  canonical := by
    rintro a (rfl | ha)
    · exact hc
    · exact R.canonical ha
  tallied := by
    rintro a (rfl | ha)
    · exact ht
    · exact R.tallied ha

/-- The next age is above those of all known nodes. -/
structure Below (R : Registry) (s : Supply) : Prop where
  ascending : s.Ascending
  lt {e : Expr} : e ∈ R.nodes → e.isLeaf = false → e.age < s.label s.next

theorem Below.precedes {s t : Supply} (h : R.Below s) (ht : s.Precedes t) : R.Below t :=
  ⟨ht.1, fun he hl => (h.lt he hl).trans_le ht.2⟩

theorem Below.succ {s : Supply} (h : R.Below s) : R.Below { s with next := s.next + 1 } :=
  ⟨h.ascending, fun he hl => (h.lt he hl).trans (h.ascending (Nat.lt_succ_self _))⟩

/-! ### Parts of known nodes -/

section Parts

variable {age : Nat} {b e : Expr} {c : Num} {factors : List (Expr × Expr)}
  {summands : List (Expr × Num)}

theorem power_base (h : .power age b e ∈ R.nodes) : b ∈ R.nodes := R.part h (by simp [parts])

theorem power_exponent (h : .power age b e ∈ R.nodes) : e ∈ R.nodes := R.part h (by simp [parts])

theorem base (h : .product age c factors ∈ R.nodes) {p : Expr × Expr} (hp : p ∈ factors) :
    p.1 ∈ R.nodes := by
  refine R.part h ?_
  simp only [parts, List.mem_cons, List.mem_flatMap]
  exact .inr ⟨p, hp, .inl rfl⟩

theorem exponent (h : .product age c factors ∈ R.nodes) {p : Expr × Expr} (hp : p ∈ factors) :
    p.2 ∈ R.nodes := by
  refine R.part h ?_
  simp only [parts, List.mem_cons, List.mem_flatMap]
  exact .inr ⟨p, hp, .inr (.inl rfl)⟩

theorem term (h : .sum age c summands ∈ R.nodes) {p : Expr × Num} (hp : p ∈ summands) :
    p.1 ∈ R.nodes := by
  refine R.part h ?_
  simp only [parts, List.mem_cons, List.mem_flatMap]
  exact .inr ⟨p, hp, .inl rfl⟩

/-- The parts of a product are known as soon as its bases and its exponents are. -/
theorem product_parts (h : ∀ p ∈ factors, p.1 ∈ R.nodes ∧ p.2 ∈ R.nodes) :
    ∀ d ∈ (Expr.product age c factors).parts, d ∈ R.nodes := by
  intro d hd
  simp only [parts, List.mem_cons, List.mem_flatMap, List.not_mem_nil, or_false] at hd
  rcases hd with rfl | ⟨p, hp, rfl | rfl⟩
  · exact R.leaf rfl
  · exact (h p hp).1
  · exact (h p hp).2

/-- The parts of a sum are known as soon as its terms are. -/
theorem sum_parts (h : ∀ p ∈ summands, p.1 ∈ R.nodes) :
    ∀ d ∈ (Expr.sum age c summands).parts, d ∈ R.nodes := by
  intro d hd
  simp only [parts, List.mem_cons, List.mem_flatMap, List.not_mem_nil, or_false] at hd
  rcases hd with rfl | ⟨p, hp, rfl | rfl⟩
  · exact R.leaf rfl
  · exact h p hp
  · exact R.leaf rfl

end Parts

/-- Unequal known nodes that are no numbers are apart. -/
theorem apart {l : List Expr} (hd : l.Pairwise fun a b => (a == b) = false)
    (hk : ∀ e ∈ l, e ∈ R.nodes ∧ e.isNum = false) : Apart l := by
  have hleaf : ∀ e : Expr, e.isNum = false → e.isVar = false → e.isLeaf = false := by
    intro e hn hv
    cases e with
    | num n => exact nomatch hn
    | var name => exact nomatch hv
    | _ => rfl
  refine hd.imp_of_mem fun {a b} ha hb hab => ⟨hab, fun hage => ?_⟩
  by_contra hvar
  rw [not_or, Bool.not_eq_true, Bool.not_eq_true] at hvar
  have he : a = b := R.unique (hk a ha).1 (hk b hb).1 (hleaf a (hk a ha).2 hvar.1)
    (hleaf b (hk b hb).2 hvar.2) hage
  rw [he, BEq.rfl] at hab
  exact nomatch hab

end Registry

/-! ## Constructions and registries -/

namespace Build

variable {α β : Type}

/-- All nodes that are known after a run of the construction, what is new among them, are older than
the next one, and what is returned satisfies the postcondition. -/
def RegistersFrom (R : Registry) (m : Build α) (s : Supply) (P : Registry → α → Prop) : Prop :=
  ∃ R', R ≤ R' ∧ R'.Below (m s).2 ∧ ∀ a, (m s).1 = .ok a → P R' a

/-- If all known nodes are older than the next one, then they are so after the construction, and
what is returned satisfies the postcondition. -/
def Registers (R : Registry) (m : Build α) (P : Registry → α → Prop) : Prop :=
  ∀ s, R.Below s → m.RegistersFrom R s P

abbrev Builds (R : Registry) (m : Build Expr) : Prop := m.Registers R fun R' e => e ∈ R'.nodes

namespace Registers

variable {R : Registry} {m : Build α} {P P' : Registry → α → Prop} {Q : Registry → β → Prop}

theorem pure {a : α} (h : P R a) : Registers R (Pure.pure a) P := by
  intro s hs
  refine ⟨R, le_refl R, hs, ?_⟩
  rintro _ ⟨⟩
  exact h

theorem throw {e : Fault} : Registers R (MonadExcept.throw e : Build α) P :=
  fun _ hs => ⟨R, le_refl R, hs, fun _ h => nomatch h⟩

/-- What comes second may go by the run of what comes first. -/
theorem bind_run {f : α → Build β} {s : Supply} (h : Registers R m P) (hs : R.Below s)
    (hf : ∀ R' a s', R ≤ R' → m s = (.ok a, s') → R'.Below s' → P R' a →
      (f a).RegistersFrom R' s' Q) : (m >>= f).RegistersFrom R s Q := by
  obtain ⟨R₁, hle, hbelow, hP⟩ := h s hs
  rw [RegistersFrom, run_bind]
  rcases hm : m s with ⟨e | a, s'⟩
  · rw [hm] at hbelow
    exact ⟨R₁, hle, hbelow, fun _ hb => nomatch hb⟩
  · rw [hm] at hbelow hP
    obtain ⟨R₂, hle', hbelow', hQ⟩ := hf R₁ a s' hle hm hbelow (hP a rfl)
    exact ⟨R₂, hle.trans hle', hbelow', hQ⟩

theorem bind {f : α → Build β} (h : Registers R m P)
    (hf : ∀ R' a, R ≤ R' → P R' a → Registers R' (f a) Q) : Registers R (m >>= f) Q :=
  fun _ hs => h.bind_run hs fun R' a s' hle _ hs' ha => hf R' a hle ha s' hs'

theorem imp (h : Registers R m P) (hP : ∀ R' a, R ≤ R' → P R' a → P' R' a) : Registers R m P' := by
  intro s hs
  obtain ⟨R', hle, hbelow, ha⟩ := h s hs
  exact ⟨R', hle, hbelow, fun a hm => hP R' a hle (ha a hm)⟩

/-- What is ensured anyway holds as well. -/
theorem and_ensures (h : Registers R m P) {P' : α → Prop} {F : Fault → Prop}
    (h' : Ensures m P' F) : Registers R m fun R' a => P R' a ∧ P' a := by
  intro s hs
  obtain ⟨R', hle, hbelow, ha⟩ := h s hs
  exact ⟨R', hle, hbelow, fun a hm => ⟨ha a hm, h'.of_fst hm⟩⟩

/-- An age that no known node has. -/
theorem fresh : Registers R Build.fresh fun _ _ => True :=
  fun _ hs => ⟨R, le_refl R, hs.succ, fun _ _ => trivial⟩

theorem observe (c : Bool) : Registers R (Build.observe c) fun _ _ => True :=
  fun _ hs => ⟨R, le_refl R, ⟨hs.ascending, hs.lt⟩, fun _ _ => trivial⟩

theorem ite {c : Prop} [Decidable c] {m' : Build α} (h : c → Registers R m P)
    (h' : ¬ c → Registers R m' P) : Registers R (if c then m else m') P := by
  split
  · exact h ‹_›
  · exact h' ‹_›

/-- A fold keeps what every step of it keeps, whatever is known by then. -/
theorem foldlM {f : β → α → Build β} {l : List α} {I : Registry → β → Prop}
    (h : ∀ R', R ≤ R' → ∀ a ∈ l, ∀ b, I R' b → Registers R' (f b a) I) {b : β} (hb : I R b) :
    Registers R (l.foldlM f b) I := by
  induction l generalizing R b with
  | nil => rw [List.foldlM_nil]; exact .pure hb
  | cons a l ih =>
    rw [List.foldlM_cons]
    refine (h R (le_refl R) a List.mem_cons_self b hb).bind fun R' b hle hb => ih ?_ hb
    exact fun R'' hle' a ha => h R'' (hle.trans hle') a (List.mem_cons_of_mem _ ha)

/-- A new node is known as soon as its age is drawn. -/
theorem node {f : Nat → Expr} {g : Nat → Build β} {s : Supply} (hs : R.Below s)
    (hage : ∀ n, (f n).age = n) (hparts : ∀ n, ∀ d ∈ (f n).parts, d ∈ R.nodes)
    (hc : (f (s.label s.next)).Canonical) (ht : (f (s.label s.next)).Tallied)
    (hg : ∀ R' n, R ≤ R' → f n ∈ R'.nodes → Registers R' (g n) Q) :
    (Build.fresh >>= g).RegistersFrom R s Q := by
  -- The age is above those of all known nodes, so that the new node is none of them.
  have hyounger : ∀ a ∈ R.nodes, a.isLeaf = false → a.age < (f (s.label s.next)).age := by
    intro a ha hl
    rw [hage]
    exact hs.lt ha hl
  have hbelow : (R.insert _ hyounger (hparts _) hc ht).Below { s with next := s.next + 1 } := by
    refine ⟨hs.ascending, ?_⟩
    rintro e (rfl | he) hl
    · rw [hage]
      exact hs.ascending (Nat.lt_succ_self _)
    · exact hs.succ.lt he hl
  have hgrown : R ≤ R.insert _ hyounger (hparts _) hc ht := fun _ he => Or.inr he
  obtain ⟨R', hle, hbelow', hQ⟩ := hg _ _ hgrown (Or.inl rfl) _ hbelow
  exact ⟨R', hgrown.trans hle, hbelow', hQ⟩

/-- A new node whose entries are tallied, or that has none. -/
theorem fresh_node {f : Nat → Expr} {g : Nat → Build β} (hage : ∀ n, (f n).age = n)
    (hparts : ∀ n, ∀ d ∈ (f n).parts, d ∈ R.nodes) (hc : ∀ n, (f n).Canonical)
    (ht : ∀ n, (f n).Tallied) (hg : ∀ R' n, R ≤ R' → f n ∈ R'.nodes → Registers R' (g n) Q) :
    Registers R (Build.fresh >>= g) Q :=
  fun _ hs => node hs hage hparts (hc _) (ht _) hg

/-- A number is known. -/
theorem number {m : Build Num} (h : Registers R m fun _ _ => True) :
    Builds R (do return .num (← m)) := h.bind fun R' _ _ _ => .pure (R'.leaf rfl)

end Registers

end Build

/-! ## Numbers and powers -/

namespace Num

variable {R : Registry}

theorem new_registers (r : Ratio) : (Num.new r).Registers R fun _ _ => True :=
  Registers.fresh.bind fun _ _ _ _ => .pure trivial

theorem divide_registers (a b : Num) : (a.divide b).Registers R fun _ _ => True := by
  rw [divide_eq]
  exact .ite (fun _ => .throw) fun _ => new_registers _

theorem reciprocal_registers (a : Num) : a.reciprocal.Registers R fun _ _ => True := by
  rw [reciprocal_eq]
  exact .ite (fun _ => .throw) fun _ => new_registers _

theorem integerPower_registers (a b : Num) : (a.integerPower b).Registers R fun _ _ => True :=
  .ite (fun _ => Registers.fresh.bind fun _ _ _ _ => Registers.fresh.bind fun _ _ _ _ =>
    new_registers _) fun _ => new_registers _

end Num

namespace Expr

variable {R : Registry} {b e : Expr}

/-- What is always canonical is canonical with any age. -/
theorem canonical_of_makes {f : Nat → Expr} (h : Makes (do return f (← Build.fresh))) (n : Nat) :
    (f n).Canonical := h ⟨0, fun _ => n, true⟩

theorem power_builds (hb : b ∈ R.nodes) (he : e ∈ R.nodes)
    (h : Makes (do return .power (← Build.fresh) b e)) :
    Builds R (do return .power (← Build.fresh) b e) := by
  refine .fresh_node (f := fun n => .power n b e) (fun _ => rfl) (fun n d hd => ?_)
    (canonical_of_makes h) (fun _ => trivial) fun _ _ _ h => .pure h
  simp only [parts, List.mem_cons, List.not_mem_nil, or_false] at hd
  rcases hd with rfl | rfl
  · exact hb
  · exact he

theorem toPower_builds {n m : Num} : Builds R (n.toPower m) := by
  have hmakes := n.toPower_canonical m
  rw [Num.toPower_eq] at hmakes ⊢
  by_cases h1 : n.isOne = true
  · rw [if_pos h1]
    exact .pure (R.leaf rfl)
  rw [if_neg h1] at hmakes ⊢
  by_cases h0 : n.isZero = true
  · rw [if_pos h0]
    exact .ite (fun _ => .pure (R.leaf rfl)) fun _ => .throw
  rw [if_neg h0] at hmakes ⊢
  by_cases hi : m.isInteger = true
  · rw [if_pos hi]
    exact .number (Num.integerPower_registers n m)
  rw [if_neg hi] at hmakes ⊢
  exact power_builds (R.leaf rfl) (R.leaf rfl) hmakes

/-- A power of known nodes is known. -/
theorem ofPower_builds (hb : b ∈ R.nodes) (he : e ∈ R.nodes) : Builds R (ofPower b e) := by
  have hmakes := ofPower_canonical (R.canonical hb) (R.canonical he)
  rcases b.num_or with ⟨n, rfl⟩ | hbn
  · rcases e.num_or with ⟨m, rfl⟩ | hen
    · exact toPower_builds
    · rw [ofPower_num n hen] at hmakes ⊢
      by_cases h1 : n.isOne = true
      · rw [if_pos h1]
        exact .pure (R.leaf rfl)
      rw [if_neg h1] at hmakes ⊢
      exact power_builds (R.leaf rfl) he hmakes
  · rw [ofPower_symbolic hbn] at hmakes ⊢
    by_cases h0 : e.isZero = true
    · rw [if_pos h0]
      exact .pure (R.leaf rfl)
    rw [if_neg h0] at hmakes ⊢
    by_cases h1 : e.isOne = true
    · rw [if_pos h1]
      exact .pure hb
    rw [if_neg h1] at hmakes ⊢
    exact power_builds hb he hmakes

/-- What is left of a known product without its coefficient is known, and may be a term. -/
theorem separate_registers {age : Nat} {c : Num} {factors : List (Expr × Expr)}
    (h : .product age c factors ∈ R.nodes) :
    (separate age c factors).Registers R fun R' p => p.2 ∈ R'.nodes ∧ p.2.Term := by
  have hparts : ∀ p ∈ factors, p.1 ∈ R.nodes ∧ p.2 ∈ R.nodes :=
    fun p hp => ⟨Registry.base h hp, Registry.exponent h hp⟩
  have ht : ∀ n, (Expr.product n .one factors).Tallied := by
    intro n
    obtain ⟨d, built, hret, -, horder⟩ := R.tallied h
    exact ⟨d, built, hret, .inr rfl, horder⟩
  cases R.canonical h with
  | product _ _ hb he form =>
    refine Registers.and_ensures ?_ (separate_term hb he form)
    unfold separate
    split
    · obtain ⟨hb, he⟩ := hparts _ List.mem_cons_self
      exact (ofPower_builds hb he).bind fun _ _ _ h => .pure h
    next hsingle =>
      have hc : ∀ n, (Expr.product n .one factors).Canonical := fun n =>
        .product n (Num.reduced _) hb he (form.unscaled hsingle)
      refine .ite (fun _ => .pure h) fun _ => ?_
      exact .fresh_node (f := fun n => .product n .one factors) (fun _ => rfl)
        (fun _ => Registry.product_parts hparts) hc ht fun _ _ _ h => .pure h

end Expr

end ExactAlgebra
