import ExactAlgebra.Proofs.Equality
import ExactAlgebra.Proofs.Ledger
import ExactAlgebra.Proofs.Traversal

/-!
# Hereditary properties

Some properties of expressions ask nothing of a node but what they ask of its parts, and a little
more of the bases of powers and entries.  Since the constructions take all bases, exponents and
terms from what they are given, such a property goes from their arguments to their results.

* `Hereditary`: the property, and what it asks of bases.
* `Hereditary.ofPower`, `Hereditary.ofProduct`, `Hereditary.ofSum`, `Hereditary.neg`: it goes from
  the arguments of the constructions to their results.
-/

namespace ExactAlgebra

open Build ExactAlgebra.Expr

namespace Expr

/-- The expression is a base of its own when it is a factor of a product. -/
def isBase : Expr → Bool
  | .var _ => true
  | .power _ b _ => b.isNum
  | .sum .. => true
  | _ => false

/-- Numbers have the property `P`, and what is made of other expressions has it if and only if its
exponents and terms have it and its bases satisfy `K`. -/
structure Hereditary (K P : Expr → Prop) : Prop where
  num (n : Num) : P (.num n)
  power (age : Nat) (b e : Expr) : P (.power age b e) ↔ (b.isNum = true ∨ K b) ∧ P e
  product (age : Nat) (c : Num) (factors : List (Expr × Expr)) :
    P (.product age c factors) ↔ ∀ p ∈ factors, K p.1 ∧ P p.2
  sum (age : Nat) (c : Num) (summands : List (Expr × Num)) :
    P (.sum age c summands) ↔ ∀ p ∈ summands, P p.1
  base (b : Expr) : K b → P b
  key (e : Expr) : P e → e.isBase = true → K e

/-- The construction returns nothing but what has the property. -/
abbrev Keeps (P : Expr → Prop) (m : Build Expr) : Prop := m.Ensures P fun _ => True

end Expr

variable {K P : Expr → Prop}

theorem Expr.Hereditary.number (h : Hereditary K P) (m : Build Num) :
    Keeps P (do return .num (← m)) :=
  m.ensures_true.bind fun n _ => .pure (h.num n)

theorem Expr.Hereditary.ofPower (h : Hereditary K P) {b e : Expr} (hb : b.isNum = true ∨ K b)
    (he : P e) : Keeps P (ofPower b e) := by
  have hpower : Keeps P (do return .power (← Build.fresh) b e) :=
    Ensures.fresh.bind fun age _ => .pure ((h.power age b e).mpr ⟨hb, he⟩)
  rcases b.num_or with ⟨b, rfl⟩ | hbn
  · rcases e.num_or with ⟨e, rfl⟩ | hen
    · rw [Expr.ofPower, Num.toPower_eq]
      exact .ite (fun _ => .pure (h.num _)) fun _ => .ite (fun _ => .ite (fun _ => .pure (h.num _))
        fun _ => .throw trivial) fun _ => .ite (fun _ => h.number _) fun _ => hpower
    · rw [ofPower_num b hen]
      exact .ite (fun _ => .pure (h.num _)) fun _ => hpower
  · rw [ofPower_symbolic hbn]
    have hbase : P b := h.base b (hb.resolve_left (by rw [hbn]; exact Bool.false_ne_true))
    exact .ite (fun _ => .pure (h.num _)) fun _ => .ite (fun _ => .pure hbase) fun _ => hpower

/-! ## Products -/

namespace ProductDraft

/-- The bases satisfy `K` and the exponents `P`. -/
def Has (K P : Expr → Prop) (d : ProductDraft) : Prop := d.exponents.All K P

variable (h : Hereditary K P) {sum : SignedTerms → Build Expr}
  (hsum : ∀ terms : SignedTerms, (∀ p ∈ terms, P p.1) → Keeps P (sum terms)) {d : ProductDraft}

include h hsum

theorem signedExponent_keeps {e : Expr} (he : P e) (sign : Sign) :
    Keeps P (signedExponent sum e sign) := by
  cases sign with
  | plus => exact .pure he
  | minus =>
    have hs : Keeps P (sum [(e, .minus)]) := hsum _ (by simpa using he)
    cases e with
    | num n => exact h.number _
    | _ => exact hs

theorem addExponents_keeps {a b : Expr} (ha : P a) (hb : P b) : Keeps P (addExponents sum a b) := by
  unfold addExponents
  split
  · exact h.number _
  · exact hsum _ (by simpa using ⟨ha, hb⟩)

theorem enter_has (hd : d.Has K P) {b e : Expr} (hb : K b) (he : P e) :
    Ensures (d.enter sum b e) (Has K P) fun _ => True := by
  refine (Ledger.ensures_post hd hb fun old hold => ?_).bind fun l hl => .pure hl.1
  have hold : P old := hold.elim id fun hzero => hzero ▸ h.num _
  exact (addExponents_keeps h hsum hold he).imp fun e he _ => he

omit h hsum in
theorem scale_has (hd : d.Has K P) (n : Num) (sign : Sign) :
    Ensures (d.scale n sign) (Has K P) fun _ => True := by
  cases sign with
  | plus => exact (ensures_true _).bind fun _ _ => .pure hd
  | minus => exact (ensures_true _).bind fun _ _ => .pure hd

theorem absorb_has (hd : d.Has K P) {x : Expr} (hx : P x) (sign : Sign) :
    Ensures (d.absorb sum x sign) (Has K P) fun _ => True := by
  have hself : K x → Ensures (d.enter sum x (.num sign.toNum)) (Has K P) fun _ => True :=
    fun hk => enter_has h hsum hd hk (h.num _)
  cases x with
  | num n => exact scale_has hd n sign
  | var name => exact hself (h.key _ hx rfl)
  | power age b e =>
    obtain ⟨hb, he⟩ := (h.power _ _ _).mp hx
    exact .ite (fun hn => hself (h.key _ hx hn)) fun hn =>
      (signedExponent_keeps h hsum he sign).bind fun _ he' =>
        enter_has h hsum hd (hb.resolve_left hn) he'
  | product age c factors =>
    have hentries := (h.product _ _ _).mp hx
    exact (scale_has hd c sign).bind fun d' hd => Ensures.foldlM (fun p hp d'' hd' =>
      (signedExponent_keeps h hsum (hentries p hp).2 sign).bind fun _ he' =>
        enter_has h hsum hd' (hentries p hp).1 he') hd
  | sum age c summands => exact hself (h.key _ hx rfl)

theorem absorbAll_has {factors divisors : List Expr} (hf : ∀ x ∈ factors, P x)
    (hx : ∀ x ∈ divisors, P x) :
    Ensures (ProductDraft.empty.absorbAll sum factors divisors) (Has K P) fun _ => True := by
  have hempty : ProductDraft.empty.Has K P := .empty
  exact (Ensures.foldlM (fun x hx d hd => absorb_has h hsum hd (hf x hx) .plus) hempty).bind
    fun d hd => Ensures.foldlM (fun x hmem d' hd' => absorb_has h hsum hd' (hx x hmem) .minus) hd

theorem flatten_has (rounds : Nat) (hd : d.Has K P) :
    Ensures (d.flatten sum rounds) (Has K P) fun _ => True := by
  induction rounds generalizing d with
  | zero => exact .throw trivial
  | succ rounds ih =>
    rw [flatten]
    split
    · exact .pure hd
    · refine (Ensures.foldlM (fun b hb d' hd' => ?_) hd).bind fun _ hd => ih hd
      obtain ⟨e, he, -⟩ := mem_nested hb
      have herase : Has K P { d' with exponents := d'.exponents.erase b } := hd'.erase b
      unfold unnest
      split
      · exact (Ensures.observe _).bind fun _ _ =>
          absorb_has h hsum herase (h.base _ (hd _ he).1) .plus
      · exact (Ensures.observe _).bind fun _ _ => .throw trivial

omit hsum in
theorem collapse_keeps (hd : d.Has K P) : Keeps P d.collapse := by
  refine .ite (fun _ => .pure (h.num _)) fun _ => ?_
  split
  · exact .pure (h.num _)
  next b e he =>
    have hentry : ∀ p ∈ [(b, e)], K p.1 ∧ P p.2 := fun p hp => hd p (he ▸ hp)
    obtain ⟨hb, he⟩ := hentry _ List.mem_cons_self
    exact .ite (fun _ => h.ofPower (.inr hb) he) fun _ => Ensures.fresh.bind fun _ _ =>
      .pure ((h.product _ _ _).mpr hentry)
  next =>
    exact Ensures.fresh.bind fun _ _ => .pure ((h.product _ _ _).mpr fun p hp =>
      hd p ((Ledger.sorted_perm _ _).mem_iff.mp hp))

end ProductDraft

/-! ## Sums -/

namespace SumDraft

/-- The terms satisfy `P`. -/
def Has (P : Expr → Prop) (d : SumDraft) : Prop := d.coefficients.All P fun _ => True

variable {d : SumDraft}

theorem enter_has (hd : d.Has P) {t : Expr} (ht : P t) (c : Num) :
    Ensures (d.enter t c) (Has P) fun _ => True := by
  refine (Ledger.ensures_post hd ht fun old _ => ?_).bind fun l hl => .pure hl.1
  exact (ensures_true _).imp fun _ _ _ => trivial

theorem shift_has (hd : d.Has P) (n scale : Num) :
    Ensures (d.shift n scale) (Has P) fun _ => True :=
  (ensures_true _).bind fun _ _ => (ensures_true _).bind fun _ _ => .pure hd

variable (h : Hereditary K P)

include h

theorem separate_keeps {age : Nat} {c : Num} {factors : List (Expr × Expr)}
    (hf : ∀ p ∈ factors, K p.1 ∧ P p.2) :
    Ensures (separate age c factors) (fun p => P p.2) fun _ => True := by
  unfold separate
  split
  · obtain ⟨hb, he⟩ := hf _ List.mem_cons_self
    exact (h.ofPower (.inr hb) he).bind fun e h => .pure h
  · exact .ite (fun _ => .pure ((h.product _ _ _).mpr hf)) fun _ =>
      Ensures.fresh.bind fun _ _ => .pure ((h.product _ _ _).mpr hf)

theorem absorb_has (hd : d.Has P) {t : Expr} (ht : P t) (scale : Num) :
    Ensures (d.absorb t scale) (Has P) fun _ => True := by
  cases t with
  | num n => exact shift_has hd n scale
  | var name => exact enter_has hd ht scale
  | power age b e => exact enter_has hd ht scale
  | product age c factors =>
    exact (separate_keeps h ((h.product _ _ _).mp ht)).bind fun p hp =>
      (ensures_true _).bind fun k _ => enter_has hd hp k
  | sum age c summands =>
    have hterms := (h.sum _ _ _).mp ht
    exact (shift_has hd c scale).bind fun d' hd => Ensures.foldlM (fun p hp d'' hd' =>
      (ensures_true _).bind fun k _ => enter_has hd' (hterms p hp) k) hd

theorem flatten_has (rounds : Nat) (hd : d.Has P) :
    Ensures (d.flatten rounds) (Has P) fun _ => True := by
  induction rounds generalizing d with
  | zero => exact .throw trivial
  | succ rounds ih =>
    rw [flatten]
    split
    · exact .pure hd
    · refine (Ensures.foldlM (fun t ht d' hd' => ?_) hd).bind fun _ hd => ih hd
      obtain ⟨c, hc, -⟩ := mem_nested ht
      have herase : Has P { d' with coefficients := d'.coefficients.erase t } := hd'.erase t
      unfold unnest
      split
      · exact (Ensures.observe _).bind fun _ _ => absorb_has h herase (hd _ hc).1 .one
      · exact (Ensures.observe _).bind fun _ _ => .throw trivial

theorem collapse_keeps {product : List Expr → Build Expr}
    (hproduct : ∀ factors : List Expr, (∀ x ∈ factors, P x) → Keeps P (product factors))
    (hd : d.Has P) : Keeps P (d.collapse product) := by
  unfold collapse
  split
  · exact .pure (h.num _)
  next t c he =>
    have ht : P t := (hd (t, c) (by rw [he]; exact List.mem_cons_self)).1
    refine .ite (fun _ => hproduct _ (by simpa using ⟨ht, h.num c⟩)) fun _ =>
      Ensures.fresh.bind fun _ _ => .pure ((h.sum _ _ _).mpr ?_)
    simpa using ht
  · exact Ensures.fresh.bind fun _ _ => .pure ((h.sum _ _ _).mpr fun p hp =>
      (hd p ((Ledger.sorted_perm _ _).mem_iff.mp hp)).1)

end SumDraft

/-! ## All levels -/

namespace Expr.Hereditary

variable (h : Hereditary K P)

include h

theorem productWith {sum : SignedTerms → Build Expr}
    (hsum : ∀ terms : SignedTerms, (∀ p ∈ terms, P p.1) → Keeps P (sum terms))
    {factors divisors : List Expr} (hf : ∀ x ∈ factors, P x) (hx : ∀ x ∈ divisors, P x) :
    Keeps P (productWith sum factors divisors) :=
  (ProductDraft.absorbAll_has h hsum hf hx).bind fun d hd =>
    (ProductDraft.flatten_has h hsum d.rounds hd).bind fun _ hd' =>
      ProductDraft.collapse_keeps h hd'

theorem sumAt (level : Nat) {terms : SignedTerms} (ht : ∀ p ∈ terms, P p.1) :
    Keeps P (sumAt level terms) := by
  induction level generalizing terms with
  | zero => exact .throw trivial
  | succ level ih =>
    have hempty : SumDraft.empty.Has P := .empty
    exact (Ensures.foldlM (fun p hp d hd => SumDraft.absorb_has h hd (ht p hp) _) hempty).bind
      fun d hd => (SumDraft.flatten_has h d.rounds hd).bind fun _ hd' =>
        SumDraft.collapse_keeps h
          (fun factors hf => h.productWith (fun _ => ih) hf (List.forall_mem_nil _)) hd'

theorem ofSum {terms : SignedTerms} (ht : ∀ p ∈ terms, P p.1) : Keeps P (ofSum terms) :=
  h.sumAt _ ht

theorem ofProduct {factors divisors : List Expr} (hf : ∀ x ∈ factors, P x)
    (hx : ∀ x ∈ divisors, P x) : Keeps P (ofProduct factors divisors) :=
  h.productWith (fun _ => h.sumAt _) hf hx

theorem neg {e : Expr} (he : P e) : Keeps P e.neg := by
  have hs : Keeps P (Expr.ofSum [(e, .minus)]) := h.ofSum (by simpa using he)
  cases e with
  | num n => exact h.number _
  | _ => exact hs

/-! ## Exponent laws -/

theorem distribute {b e : Expr} (hb : P b) (he : P e) : Keeps P (distribute b e) := by
  induction b generalizing e with
  | num n => exact h.ofPower (.inl rfl) he
  | var name => exact h.ofPower (.inr (h.key _ hb rfl)) he
  | power age b x ihb _ =>
    obtain ⟨hbase, hx⟩ := (h.power _ _ _).mp hb
    have hinner : P b := by
      rcases b.num_or with ⟨n, rfl⟩ | hn
      · exact h.num n
      · exact h.base b (hbase.resolve_left (by rw [hn]; exact Bool.false_ne_true))
    exact (h.ofProduct (by simpa using ⟨hx, he⟩) (List.forall_mem_nil _)).bind fun y hy =>
      ihb hinner hy
  | product age c factors ih =>
    have hentries := (h.product _ _ _).mp hb
    have hfactors : Ensures (distributeAll factors e) (fun xs => ∀ x ∈ xs, P x) fun _ => True := by
      clear hb
      induction factors with
      | nil => exact .pure (List.forall_mem_nil _)
      | cons p factors ihf =>
        rw [List.forall_mem_cons] at ih hentries
        refine (h.ofProduct (by simpa using ⟨hentries.1.2, he⟩) (List.forall_mem_nil _)).bind
          fun y hy => (ih.1.1 (h.base _ hentries.1.1) hy).bind fun x hx =>
            (ihf ih.2 hentries.2).bind fun xs hxs => .pure (List.forall_mem_cons.mpr ⟨hx, hxs⟩)
    have hcoefficient : Ensures (distributeCoefficient c e) (fun xs => ∀ x ∈ xs, P x)
        fun _ => True :=
      .ite (fun _ => .pure (List.forall_mem_nil _)) fun _ =>
        (h.ofProduct (by simpa using ⟨h.num _, he⟩) (List.forall_mem_nil _)).bind fun y hy =>
          (h.ofPower (.inl rfl) hy).bind fun x hx => .pure (by simpa using hx)
    exact hcoefficient.bind fun xs hxs => hfactors.bind fun ys hys =>
      h.ofProduct (List.forall_mem_append.mpr ⟨hxs, hys⟩) (List.forall_mem_nil _)
  | sum age c summands _ => exact h.ofPower (.inr (h.key _ hb rfl)) he

/-- A property of all variables is one of every simplified expression. -/
theorem simplify (hv : ∀ name, P (.var name)) (e : Expr) : Keeps P e.simplify := by
  induction e with
  | num n => exact .pure (h.num n)
  | var name => exact .pure (hv name)
  | power age b e ihb ihe =>
    exact ihb.bind fun b' hb => ihe.bind fun e' he => h.distribute hb he
  | product age c factors ih =>
    have hfactors : Ensures (simplifyFactors factors) (fun xs => ∀ x ∈ xs, P x) fun _ => True := by
      induction factors with
      | nil => exact .pure (List.forall_mem_nil _)
      | cons p factors ihf =>
        rw [List.forall_mem_cons] at ih
        exact ih.1.1.bind fun b' hb => ih.1.2.bind fun e' he => (h.distribute hb he).bind
          fun x hx => (ihf ih.2).bind fun xs hxs => .pure (List.forall_mem_cons.mpr ⟨hx, hxs⟩)
    exact hfactors.bind fun xs hxs =>
      h.ofProduct (List.forall_mem_cons.mpr ⟨h.num c, hxs⟩) (List.forall_mem_nil _)
  | sum age c summands ih =>
    have hsummands : Ensures (simplifySummands summands) (fun ts => ∀ p ∈ ts, P p.1)
        fun _ => True := by
      induction summands with
      | nil => exact .pure (List.forall_mem_nil _)
      | cons p summands ihs =>
        rw [List.forall_mem_cons] at ih
        exact ih.1.bind fun t ht => (h.ofProduct (by simpa using ⟨ht, h.num p.2⟩)
          (List.forall_mem_nil _)).bind fun x hx => (ihs ih.2).bind fun ts hts =>
            .pure (List.forall_mem_cons.mpr ⟨hx, hts⟩)
    exact hsummands.bind fun ts hts => h.ofSum
      (List.forall_mem_append.mpr ⟨hts, by simpa using h.num c⟩)

end Expr.Hereditary

end ExactAlgebra
