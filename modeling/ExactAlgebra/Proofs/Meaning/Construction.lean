import ExactAlgebra.Proofs.Canonical.Obtainable
import ExactAlgebra.Proofs.Failure
import ExactAlgebra.Proofs.Meaning.Simplification
import ExactAlgebra.Proofs.Meaning.Worth
import Mathlib

/-!
# Sums and products keep the values of what they are made of

Where numbers are given for the variables and no power is irrational, evaluation works out what an
expression denotes, and a timely sum or product denotes what its operands come to.  So it evaluates
to the sum or the quotient of their values.  An irrational power stays symbolic, and then a
construction may undo what had cancelled.

* `denote_of_evaluate`, `evaluate_of_denote`: evaluation and denotation agree.
* `evaluate_ofSum`: a sum evaluates to the signed sum of the values of its terms.
* `evaluate_ofProduct`: a product evaluates to the product of the values of its factors divided by
  those of its divisors, and there is no product exactly if one of the divisors is zero.
-/

namespace ExactAlgebra.Expr

open Build Partial

variable {bindings : Bindings}

/-! ## Evaluation and denotation -/

/-- No power in the expression is irrational when the bound numbers stand for the variables. -/
def RationalPowers (bindings : Bindings) (e : Expr) : Prop :=
  ∀ p ∈ e.subpowers, RationalPower bindings.rational? p.1 p.2

theorem RationalPower.of_integer {ρ : String → Option ℚ} (b : Expr) {n : Num}
    (h : n.value.den = 1) : RationalPower ρ b (.num n) := (TamePower.of_integer b h).rationalPower

/-- Some evaluation of the expression returns a number with this value. -/
def HasValue (bindings : Bindings) (e : Expr) (q : ℚ) : Prop :=
  ∃ s n, (e.evaluate bindings s).1 = .ok (.num n) ∧ n.value = q

/-- What evaluates to a number denotes it. -/
theorem denote_of_evaluate (hb : ∀ p ∈ bindings, p.2.isNum = true) {e : Expr}
    (he : e.RationalPowers bindings) {q : ℚ} (h : e.HasValue bindings q) :
    e.denote .all bindings.rational? = some q := by
  obtain ⟨s, n, hn, rfl⟩ := h
  obtain ⟨m, hm, hdenote⟩ := (substitute_rational (Bindings.assigns hb) he).of_fst hn
  obtain rfl := Expr.num.inj hm
  exact hdenote

/-- A power that has a value is not irrational. -/
theorem rationalPower_of_denoteFactor {ρ : String → Option ℚ} {p : Expr × Expr}
    (h : (denoteFactor .all ρ p).isSome = true) : RationalPower ρ p.1 p.2 := by
  intro x y hx hy
  obtain ⟨w, hw⟩ := Option.isSome_iff_exists.mp h
  rw [denoteFactor, hx, hy] at hw
  obtain ⟨_, _, ⟨⟩, ⟨⟩, -, hpower⟩ := Admission.raise_eq_some.mp hw
  rcases power?_cases hpower with ⟨h1, -⟩ | ⟨h0, -⟩ | ⟨n, -, hn, -⟩
  · exact .inr (.inr h1)
  · exact .inr (.inl h0)
  · exact .inl (isInteger_iff.mpr ⟨n, hn⟩)

/-- Where expressions evaluate to numbers, they denote them. -/
theorem denote_of_values (hb : ∀ p ∈ bindings, p.2.isNum = true) {α : Type} {f : α → Expr}
    {l : List α} (hr : ∀ a ∈ l, (f a).RationalPowers bindings) {qs : List ℚ}
    (hv : List.Forall₂ (fun a q => (f a).HasValue bindings q) l qs) :
    List.Forall₂ (fun a q => (f a).denote .all bindings.rational? = some q) l qs :=
  ((List.forall₂_and_left _ _).mpr ⟨hr, hv⟩).imp fun _ _ h => denote_of_evaluate hb h.1 h.2

/-- What denotes a rational evaluates to it. -/
theorem evaluate_of_denote (hb : ∀ p ∈ bindings, p.2.isNum = true) {e : Expr} {q : ℚ}
    (h : e.denote .all bindings.rational? = some q) (s : Supply) :
    ∃ n, (e.evaluate bindings s).1 = .ok (.num n) ∧ n.value = q :=
  (substitute_rational (Bindings.assigns hb) fun p hp =>
    rationalPower_of_denoteFactor (isSome_denoteFactor (by rw [h]; rfl) p hp)).returns h s

/-- What is built and evaluates to a number from every supply does so from the one that is left. -/
theorem evaluate_bind {m : Build Expr} {e : Expr} {s : Supply} {q : ℚ} (he : (m s).1 = .ok e)
    (h : ∀ t, ∃ n, (e.evaluate bindings t).1 = .ok (.num n) ∧ n.value = q) :
    ∃ n, ((m >>= fun e => e.evaluate bindings) s).1 = .ok (.num n) ∧ n.value = q := by
  rw [bind_of_ok (Prod.ext he rfl)]
  exact h (m s).2

/-! ## Sums -/

def signedSum (terms : SignedTerms) (qs : List ℚ) : ℚ :=
  (List.zipWith (fun p q => p.2.toNum.value * q) terms qs).sum

theorem sum_denote {ρ : String → Option ℚ} {terms : SignedTerms} {qs : List ℚ}
    (h : List.Forall₂ (fun p q => p.1.denote .all ρ = some q) terms qs) :
    (terms.map fun p => some p.2.toNum.value * p.1.denote .all ρ).sum =
      some (signedSum terms qs) := by
  induction h with
  | nil => rfl
  | cons hp _ ih =>
    rw [List.map_cons, List.sum_cons, ih, hp, some_mul_some, some_add_some]
    rfl

/-- **A sum keeps the values of its terms.**  If the terms evaluate to numbers and contain no
irrational powers, a timely sum of them is returned and evaluates to the signed sum. -/
theorem evaluate_ofSum (hb : ∀ p ∈ bindings, p.2.isNum = true) {terms : SignedTerms}
    (hr : ∀ p ∈ terms, p.1.RationalPowers bindings) {qs : List ℚ}
    (hv : List.Forall₂ (fun p q => p.1.HasValue bindings q) terms qs) {s : Supply}
    (hs : (ofSum terms s).2.timely = true) :
    ∃ e, (ofSum terms s).1 = .ok e ∧
      ∀ t, ∃ n, (e.evaluate bindings t).1 = .ok (.num n) ∧ n.value = signedSum terms qs := by
  have hsum := sum_denote (denote_of_values hb hr hv)
  obtain ⟨e, he, hvalue⟩ := (ofSum_gives terms).returns (ofSum_finishes terms) (fun h => h rfl) hs
    (by rw [hsum]; rfl)
  exact ⟨e, he, evaluate_of_denote hb (hvalue.trans hsum)⟩

/-- The terms `2 (x + y)`, `-(x + y)` and `-x`. -/
def multiples : SignedTerms :=
  [(.product 11 ⟨2, 9⟩ [(.sum 8 .zero [(.var "x", ⟨1, 6⟩), (.var "y", ⟨1, 7⟩)],
      .num ⟨1, 10⟩)], .plus),
    (.product 18 ⟨-1, 17⟩ [(.sum 14 .zero [(.var "x", ⟨1, 12⟩), (.var "y", ⟨1, 13⟩)],
      .num ⟨1, 16⟩)], .plus),
    (.var "x", .minus)]

/-- What is left of the multiples of `x + y` is merged with `-x`, and with `1/2` for `x` and `-3`
for `y` it is `-3`. -/
theorem evaluate_ofSum_merged : ∃ e, (ofSum multiples ⟨20, id, true⟩).1 = .ok e ∧
    ∀ t, ∃ n,
      (e.evaluate [("x", .num ⟨.ofRat (1 / 2), 5⟩), ("y", .num ⟨-3, 19⟩)] t).1 = .ok (.num n) ∧
        n.value = -3 := by
  have hpowers : ∀ p ∈ multiples,
      p.1.RationalPowers [("x", .num ⟨.ofRat (1 / 2), 5⟩), ("y", .num ⟨-3, 19⟩)] := by
    simp only [multiples, List.forall_mem_cons, RationalPowers, subpowers, factorsSubpowers,
      summandsSubpowers, List.append_nil, List.not_mem_nil, false_imp_iff, implies_true, and_true]
    exact ⟨.of_integer _ rfl, .of_integer _ rfl⟩
  have hvalues : List.Forall₂
      (fun p q => p.1.HasValue [("x", .num ⟨.ofRat (1 / 2), 5⟩), ("y", .num ⟨-3, 19⟩)] q) multiples
      [-5, 5 / 2, 1 / 2] :=
    .cons ⟨.initial, ⟨-5, 17⟩, by cbv, rfl⟩
      (.cons ⟨.initial, ⟨.ofRat (5 / 2), 17⟩, by cbv, by simp⟩
        (.cons ⟨.initial, ⟨.ofRat (1 / 2), 5⟩, by cbv, by simp⟩ .nil))
  have htimely : (ofSum multiples ⟨20, id, true⟩).2.timely = true := by cbv
  have hsigned : signedSum multiples [-5, 5 / 2, 1 / 2] = -3 := by cbv
  obtain ⟨e, he, hvalue⟩ := evaluate_ofSum (by simp [isNum]) hpowers hvalues htimely
  refine ⟨e, he, fun t => ?_⟩
  obtain ⟨n, hn, hq⟩ := hvalue t
  exact ⟨n, hn, hq.trans hsigned⟩

/-- `(x^(1/2) + 1)^w - x^(1/2) - 1`, which cancels if `w` is one. -/
def cancellingSum : Expr :=
  .sum 26 ⟨-1, 25⟩ [(.power 20 (.var "x") (.num ⟨.ofRat (1 / 2), 19⟩), ⟨-1, 23⟩),
    (.power 21 (.sum 17 ⟨1, 16⟩ [(.power 13 (.var "x") (.num ⟨.ofRat (1 / 2), 12⟩), ⟨1, 14⟩)])
      (.var "w"), ⟨1, 22⟩)]

set_option maxRecDepth 2048 in
/-- With `2` for `x` and `1` for `w`, twice an expression with the value `0` is no number but
`-2 2^(1/2) + 2 (2^(1/2) + 1) - 2`: a sum with a coefficient is not multiplied out. -/
theorem ofSum_irrational : ¬ ∀ (terms : SignedTerms) (bindings : Bindings) (qs : List ℚ)
    (s : Supply), (∀ p ∈ terms, p.1.Obtainable) → (∀ p ∈ bindings, p.2.isNum = true) →
    List.Forall₂ (fun p q => p.1.HasValue bindings q) terms qs →
    (ofSum terms s).2.timely = true →
    ∃ e, (ofSum terms s).1 = .ok e ∧
      ∀ t, ∃ n, (e.evaluate bindings t).1 = .ok (.num n) ∧ n.value = signedSum terms qs := by
  intro h
  have hobtainable : cancellingSum.Obtainable :=
    @Obtainable.parse 200 "(x^(1/2)+1)^w-x^(1/2)-1" _ .initial (by cbv)
  have hvalue : cancellingSum.HasValue [("x", .num ⟨2, 27⟩), ("w", .num ⟨1, 28⟩)] 0 :=
    ⟨⟨29, id, true⟩, ⟨0, 49⟩, by cbv, rfl⟩
  obtain ⟨e, he, hsum⟩ := h [(cancellingSum, .plus), (cancellingSum, .plus)]
    [("x", .num ⟨2, 27⟩), ("w", .num ⟨1, 28⟩)] [0, 0] ⟨29, id, true⟩ (by simpa using hobtainable)
    (by simp [isNum]) (.cons hvalue (.cons hvalue .nil)) (by cbv)
  obtain ⟨n, hn, -⟩ := evaluate_bind he hsum
  have hkind : ((ofSum [(cancellingSum, .plus), (cancellingSum, .plus)] >>= fun e =>
      e.evaluate [("x", .num ⟨2, 27⟩), ("w", .num ⟨1, 28⟩)]) ⟨29, id, true⟩).1.toOption.map isNum =
      some false := by cbv
  rw [hn] at hkind
  cases hkind

/-! ## Products -/

/-- There is no product with a divisor that is zero. -/
theorem productWith_zero {sum : SignedTerms → Build Expr} {factors divisors : List Expr}
    {e : Expr} (he : e ∈ divisors) (h0 : e.isZero = true) :
    Ensures (productWith sum factors divisors) (fun _ => False) fun _ => True := by
  obtain ⟨n, rfl, hn⟩ := exists_num_of_isZero h0
  have hdivide (d : ProductDraft) :
      Ensures (d.absorb sum (.num n) .minus) (fun _ => False) fun _ => True := by
    refine Ensures.bind (P := fun _ => False) ?_ fun _ => False.elim
    rw [Num.divide_eq, if_pos (Num.isZero_iff.mpr hn)]
    exact .throw trivial
  refine Ensures.bind (P := fun _ => False) ?_ fun _ => False.elim
  exact (ensures_true _).bind fun d _ => .foldlM_never he hdivide d

theorem prod_denote {ρ : String → Option ℚ} {es : List Expr} {qs : List ℚ}
    (h : List.Forall₂ (fun e q => e.denote .all ρ = some q) es qs) :
    (es.map (denote .all ρ)).prod = some qs.prod := by
  induction h with
  | nil => rfl
  | cons hp _ ih => rw [List.map_cons, List.prod_cons, ih, hp, some_mul_some, List.prod_cons]

/-- **What a timely product of canonical expressions fails with is a division by zero**, and then
one of its divisors is zero. -/
theorem ofProduct_fault {factors divisors : List Expr} (hf : ∀ e ∈ factors, e.Canonical)
    (hd : ∀ e ∈ divisors, e.Canonical) {s : Supply}
    (hs : (ofProduct factors divisors s).2.timely = true) {f : Fault}
    (he : (ofProduct factors divisors s).1 = .error f) :
    (∃ q, f = .divisionByZero q) ∧ ∃ e ∈ divisors, e.isZero = true := by
  have hensures := ofProduct_ensures hf hd s
  have hinherent := ofProduct_inherent factors divisors s f he
  rw [he] at hensures
  rcases hensures with hmerging | hzero
  · -- A missing entry belongs to a merge that was not timely.
    cases f with
    | missingEntry key => rw [hs] at hinherent; cases hinherent.1
    | exhausted => exact hinherent.1.elim
    | _ => exact hmerging.elim
  · exact hzero

/-- **A timely product has the quotient of the values of its factors and divisors.** -/
theorem ofProduct_value (hb : ∀ p ∈ bindings, p.2.isNum = true) {factors divisors : List Expr}
    (hr : ∀ e ∈ factors ++ divisors, e.RationalPowers bindings) {ps qs : List ℚ}
    (hp : List.Forall₂ (HasValue bindings) factors ps)
    (hq : List.Forall₂ (HasValue bindings) divisors qs) (h0 : 0 ∉ qs) {s : Supply}
    (hs : (ofProduct factors divisors s).2.timely = true) :
    ∃ e, (ofProduct factors divisors s).1 = .ok e ∧
      ∀ t, ∃ n, (e.evaluate bindings t).1 = .ok (.num n) ∧ n.value = ps.prod / qs.prod := by
  rw [List.forall_mem_append] at hr
  have hquotient : (factors.map (denote .all bindings.rational?)).prod *
      inverse (divisors.map (denote .all bindings.rational?)).prod =
      some (ps.prod / qs.prod) := by
    rw [prod_denote (denote_of_values hb hr.1 hp), prod_denote (denote_of_values hb hr.2 hq),
      inverse_some (List.prod_ne_zero h0), some_mul_some, div_eq_mul_inv]
  obtain ⟨e, he, hvalue⟩ := (ofProduct_gives factors divisors).returns
    (ofProduct_finishes factors divisors) (fun h => h rfl) hs (by rw [hquotient]; rfl)
  exact ⟨e, he, evaluate_of_denote hb (hvalue.trans hquotient)⟩

/-- **A product keeps the values of its factors and divisors.**  As long as merges are timely, there
is a product unless one of the divisors is zero, and then a division by zero is reported.  If
factors and divisors evaluate to numbers, those of the divisors not zero, and contain no irrational
powers, a product is returned and evaluates to the quotient of the products of the numbers. -/
theorem evaluate_ofProduct {factors divisors : List Expr} (hf : ∀ e ∈ factors, e.Obtainable)
    (hd : ∀ e ∈ divisors, e.Obtainable) {s : Supply}
    (hs : (ofProduct factors divisors s).2.timely = true) :
    (∀ f, (ofProduct factors divisors s).1 = .error f → ∃ q, f = .divisionByZero q) ∧
      ((∃ q, (ofProduct factors divisors s).1 = .error (.divisionByZero q)) ↔
        ∃ e ∈ divisors, e.isZero = true) ∧
      ∀ bindings : Bindings, (∀ p ∈ bindings, p.2.isNum = true) →
        (∀ e ∈ factors ++ divisors, e.RationalPowers bindings) →
        ∀ ps qs : List ℚ, List.Forall₂ (HasValue bindings) factors ps →
          List.Forall₂ (HasValue bindings) divisors qs → 0 ∉ qs →
          ∃ e, (ofProduct factors divisors s).1 = .ok e ∧
            ∀ t, ∃ n, (e.evaluate bindings t).1 = .ok (.num n) ∧ n.value = ps.prod / qs.prod := by
  have hfault : ∀ {f}, (ofProduct factors divisors s).1 = .error f →
      (∃ q, f = .divisionByZero q) ∧ ∃ e ∈ divisors, e.isZero = true :=
    ofProduct_fault (fun e h => (hf e h).canonical) (fun e h => (hd e h).canonical) hs
  refine ⟨fun f he => (hfault he).1, ⟨fun ⟨_, he⟩ => (hfault he).2, ?_⟩, ?_⟩
  · rintro ⟨e, hmem, h0⟩
    have hnever : Ensures (ofProduct factors divisors) (fun _ => False) fun _ => True :=
      productWith_zero hmem h0
    cases he : (ofProduct factors divisors s).1 with
    | ok r => exact (hnever.of_fst he).elim
    | error f =>
      obtain ⟨q, rfl⟩ := (hfault he).1
      exact ⟨q, rfl⟩
  · intro bindings hb hr ps qs hp hq h0
    exact ofProduct_value hb hr hp hq h0 hs

def cubeOfProduct : Expr :=
  .power 9 (.product 8 .one [(.var "x", .num ⟨1, 6⟩), (.var "y", .num ⟨1, 7⟩)]) (.num ⟨3, 5⟩)

def squareOfProduct : Expr :=
  .power 14 (.product 13 .one [(.var "x", .num ⟨1, 11⟩), (.var "y", .num ⟨1, 12⟩)]) (.num ⟨2, 10⟩)

set_option maxRecDepth 2048 in
/-- The product of `(xy)^3` and `z` divided by `(xy)^2` and `x`, where the one `xy` that is left is
merged, is `3/5` with `2` for `x`, `3` for `y` and `1/5` for `z`.  Nothing is divided by zero. -/
theorem evaluate_ofProduct_merged :
    (∃ e, (ofProduct [cubeOfProduct, .var "z"] [squareOfProduct, .var "x"] ⟨15, id, true⟩).1 =
        .ok e ∧ ∀ t, ∃ n,
          (e.evaluate [("x", .num ⟨2, 5⟩), ("y", .num ⟨3, 6⟩),
            ("z", .num ⟨.ofRat (1 / 5), 7⟩)] t).1 = .ok (.num n) ∧ n.value = 3 / 5) ∧
      ∃ q, (ofProduct [cubeOfProduct] [.zero] ⟨15, id, true⟩).1 = .error (.divisionByZero q) := by
  have hcube : cubeOfProduct.Obtainable := @Obtainable.parse 200 "(xy)^3" _ .initial (by cbv)
  have hsquare : squareOfProduct.Obtainable :=
    @Obtainable.parse 200 "(xy)^2" _ ⟨10, id, true⟩ (by cbv)
  constructor
  · have hpowers : ∀ e ∈ [cubeOfProduct, .var "z", squareOfProduct, .var "x"],
        e.RationalPowers [("x", .num ⟨2, 5⟩), ("y", .num ⟨3, 6⟩),
          ("z", .num ⟨.ofRat (1 / 5), 7⟩)] := by
      simp only [cubeOfProduct, squareOfProduct, List.forall_mem_cons, RationalPowers, subpowers,
        factorsSubpowers, List.append_nil, List.nil_append, List.not_mem_nil, false_imp_iff,
        implies_true, and_true, true_and]
      exact ⟨⟨.of_integer _ rfl, .of_integer _ rfl, .of_integer _ rfl⟩, .of_integer _ rfl,
        .of_integer _ rfl, .of_integer _ rfl⟩
    have htimely : (ofProduct [cubeOfProduct, .var "z"] [squareOfProduct, .var "x"]
      ⟨15, id, true⟩).2.timely = true := by cbv
    have hvalue := (evaluate_ofProduct (by simp [hcube, Obtainable.var])
      (by simp [hsquare, Obtainable.var]) htimely).2.2
    have hproduct := hvalue _ (by simp [isNum]) hpowers [216, 1 / 5] [36, 2]
      (.cons ⟨.initial, ⟨216, 10⟩, by cbv, rfl⟩
        (.cons ⟨.initial, ⟨.ofRat (1 / 5), 7⟩, by cbv, by simp⟩ .nil))
      (.cons ⟨.initial, ⟨36, 10⟩, by cbv, rfl⟩ (.cons ⟨.initial, ⟨2, 5⟩, by cbv, rfl⟩ .nil))
      (by simp)
    rwa [show [216, 1 / 5].prod / [36, 2].prod = (3 / 5 : ℚ) by norm_num] at hproduct
  · have htimely : (ofProduct [cubeOfProduct] [.zero] ⟨15, id, true⟩).2.timely = true := by cbv
    have hzero := (evaluate_ofProduct (by simpa using hcube) (by simp [zero, Obtainable.num])
      htimely).2.1
    exact hzero.mpr ⟨.zero, List.mem_singleton_self _, rfl⟩

/-- `((x^(1/2) + 1) (z^(1/2) + 1))^w / (x^(1/2) + 1) / (z^(1/2) + 1)`, which cancels if `w` is
one. -/
def cancellingProduct : Expr :=
  .product 56 ⟨1, 1⟩ [
    (.product 33 ⟨1, 1⟩ [
      (.sum 23 ⟨1, 22⟩ [(.power 19 (.var "x") (.num ⟨.ofRat (1 / 2), 18⟩), ⟨1, 20⟩)], .num ⟨1, 31⟩),
      (.sum 30 ⟨1, 29⟩ [(.power 26 (.var "z") (.num ⟨.ofRat (1 / 2), 25⟩), ⟨1, 27⟩)],
        .num ⟨1, 32⟩)], .var "w"),
    (.sum 40 ⟨1, 39⟩ [(.power 36 (.var "x") (.num ⟨.ofRat (1 / 2), 35⟩), ⟨1, 37⟩)], .num ⟨-1, 54⟩),
    (.sum 47 ⟨1, 46⟩ [(.power 43 (.var "z") (.num ⟨.ofRat (1 / 2), 42⟩), ⟨1, 44⟩)], .num ⟨-1, 55⟩)]

/-- Numbers for the variables of `cancellingProduct` with which it is one. -/
def cancelling : Bindings := [("x", .num ⟨2, 57⟩), ("z", .num ⟨3, 58⟩), ("w", .num ⟨1, 59⟩)]

set_option maxRecDepth 4096 in
/-- The square of an expression with the value `1` is no number: a power of a product is not
multiplied out, so that `((2^(1/2) + 1) (3^(1/2) + 1))^2` is left in it. -/
theorem ofProduct_irrational : ¬ ∀ (factors divisors : List Expr) (bindings : Bindings)
    (ps qs : List ℚ) (s : Supply), (∀ e ∈ factors, e.Obtainable) → (∀ e ∈ divisors, e.Obtainable) →
    (∀ p ∈ bindings, p.2.isNum = true) → List.Forall₂ (HasValue bindings) factors ps →
    List.Forall₂ (HasValue bindings) divisors qs → 0 ∉ qs →
    (ofProduct factors divisors s).2.timely = true →
    ∃ e, (ofProduct factors divisors s).1 = .ok e ∧
      ∀ t, ∃ n, (e.evaluate bindings t).1 = .ok (.num n) ∧ n.value = ps.prod / qs.prod := by
  intro h
  have hobtainable : cancellingProduct.Obtainable :=
    @Obtainable.parse 200 "((x^(1/2)+1)(z^(1/2)+1))^w/(x^(1/2)+1)/(z^(1/2)+1)" _ .initial (by cbv)
  have hvalue : cancellingProduct.HasValue cancelling 1 := ⟨⟨60, id, true⟩, ⟨1, 95⟩, by cbv, rfl⟩
  obtain ⟨e, he, hproduct⟩ := h [cancellingProduct, cancellingProduct] [] cancelling [1, 1] []
    ⟨60, id, true⟩ (by simpa using hobtainable) (by simp) (by simp [cancelling, isNum])
    (.cons hvalue (.cons hvalue .nil)) .nil (by simp) (by cbv)
  obtain ⟨n, hn, -⟩ := evaluate_bind he hproduct
  have hkind : ((ofProduct [cancellingProduct, cancellingProduct] [] >>= fun e =>
      e.evaluate cancelling) ⟨60, id, true⟩).1.toOption.map isNum = some false := by cbv
  rw [hn] at hkind
  cases hkind

end ExactAlgebra.Expr
