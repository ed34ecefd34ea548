import ExactAlgebra.Proofs.Canonical.Obtainable
import ExactAlgebra.Proofs.Meaning.Draft
import ExactAlgebra.Proofs.Meaning.Evaluation
import ExactAlgebra.Proofs.Termination

/-!
# Simplification keeps the value

The exponent laws `(a b) ^ n = a ^ n b ^ n` and `(b ^ x) ^ n = b ^ (x n)` hold for integers `n`,
also where a base is negative or zero.  So simplification keeps the value of an expression in which
only integers are exponents of compound bases.  For other exponents the laws fail: of
`(x ^ 2) ^ (1 / 2)` simplification leaves `x`, which is not the same for negative `x`.

* `distribute_gives`: a base raised by the exponent laws has the value of the power.
* `simplify_gives`: a simplified expression has the value of the expression.
* `evaluate_simplify`: where a tame expression evaluates to a number, it simplifies to an expression
  that evaluates to the same number.
* `simplify_square_root`: an expression that is not tame and does not.
-/

namespace ExactAlgebra

open Build Partial ExactAlgebra.Expr

namespace Expr

variable {ρ : String → Option ℚ}

/-! ## The exponent laws -/

theorem raise_mul_integer {b : Expr} {x y : Option ℚ} {v w : ℚ} {n : ℤ}
    (h : Admission.integral.raise b x y = some v) (hw : power? v n = some w) :
    Admission.integral.raise b x (y * some (n : ℚ)) = some w := by
  obtain ⟨p, q, rfl, rfl, ha, hpow⟩ := Admission.raise_eq_some.mp h
  refine Admission.raise_eq_some.mpr ⟨p, q * n, rfl, rfl, ?_, power?_mul hpow hw⟩
  rcases integral_admits.mp ha with hatom | ⟨m, rfl⟩
  · exact integral_admits.mpr (.inl hatom)
  · exact integral_admits.mpr (.inr ⟨m * n, (Int.cast_mul m n).symm⟩)

def denoteRaised (ρ : String → Option ℚ) (x : Option ℚ) (p : Expr × Expr) : Option ℚ :=
  Admission.integral.raise p.1 (p.1.denote .integral ρ) (p.2.denote .integral ρ * x)

theorem prod_denoteRaised {factors : List (Expr × Expr)} {n : ℤ} {v w : ℚ}
    (hv : denoteFactors .integral ρ factors = some v) (hw : power? v n = some w) :
    (factors.map (denoteRaised ρ (some (n : ℚ)))).prod = some w := by
  induction factors generalizing v w with
  | nil =>
    obtain rfl : 1 = v := Option.some.inj hv
    rw [one_power?] at hw
    exact hw
  | cons p factors ih =>
    obtain ⟨b, e⟩ := p
    obtain ⟨x, y, hx, hy, rfl⟩ := mul_eq_some.mp hv
    obtain ⟨r, s, hr, hs, rfl⟩ := mul_eq_some.mp (mul_power? hw)
    rw [List.map_cons, List.prod_cons, denoteRaised, raise_mul_integer hx hr, ih hy hs,
      some_mul_some]

variable (ρ) in
theorem multiplyExponents_gives (a b : Expr) : Gives (multiplyExponents a b) (denote .integral ρ)
    (a.denote .integral ρ * b.denote .integral ρ) :=
  (ofProduct_gives [a, b] []).congr fun _ => by simp [inverse_one]

def denoteList (ρ : String → Option ℚ) (es : List Expr) : Option ℚ :=
  (es.map (denote .integral ρ)).prod

variable (ρ) in
theorem ofProduct_gives_list (es : List Expr) :
    Gives (ofProduct es []) (denote .integral ρ) (denoteList ρ es) :=
  productWith_gives_factors (sumAt_gives _) es

/-- A factor in front of a list of factors. -/
theorem gives_cons {m : Build Expr} {ms : Build (List Expr)} {t u : Option ℚ}
    (h : Gives m (denote .integral ρ) t) (hs : Gives ms (denoteList ρ) u) :
    Gives (do let e ← m; return e :: (← ms)) (denoteList ρ) (t * u) := by
  refine h.bind (v := fun e => e.denote .integral ρ * u) (fun h => (isSome_mul.mp h).1)
    (fun e => hs.bind (fun h => (isSome_mul.mp h).2) (fun es => .pure fun _ => rfl)
      fun es _ h => ?_) fun e _ h => ?_
  · rw [denoteList, List.map_cons, List.prod_cons, ← h, denoteList]
  · rw [h]

theorem gives_append {ms : Build (List Expr)} {u : Option ℚ} (es : List Expr)
    (hs : Gives ms (denoteList ρ) u) :
    Gives (do ofProduct (es ++ (← ms)) []) (denote .integral ρ) (denoteList ρ es * u) := by
  refine hs.bind (fun h => (isSome_mul.mp h).2) (fun fs => ofProduct_gives_list ρ (es ++ fs))
    fun fs _ h => ?_
  rw [← h, denoteList, denoteList, denoteList, List.map_append, List.prod_append]

variable (ρ) in
theorem distributeCoefficient_gives (c : Num) (e : Expr) :
    Gives (distributeCoefficient c e) (denoteList ρ)
      (Admission.integral.raise (.num c) (some c.value) (e.denote .integral ρ)) := by
  refine .ite (fun h1 => .pure fun hs => ?_) fun _ => ?_
  · rw [Num.isOne_iff.mp h1] at hs ⊢
    rw [Admission.one_raise hs]
    rfl
  · have hpower : ∀ x, Gives (do return [← ofPower (.num c) x]) (denoteList ρ)
        (Admission.integral.raise (.num c) (some c.value) (x.denote .integral ρ)) := fun x =>
      (ofPower_gives (.num c) x).bind id (fun f => .pure fun _ => rfl) fun f _ h => by
        rw [denoteList, List.map_singleton, List.prod_singleton, h, denote_num]
    refine (multiplyExponents_gives ρ .one e).bind (fun hs => ?_) hpower fun x _ hx => ?_
    · exact isSome_mul.mpr ⟨rfl, (Admission.isSome_of_raise hs).2⟩
    · rw [hx, one, denote_num, show Num.one.value = 1 from rfl, ← one_eq, one_mul]

theorem distributeAll_gives {factors : List (Expr × Expr)} (e : Expr)
    (ih : ∀ p ∈ factors, ∀ x : Expr, Gives (distribute p.1 x) (denote .integral ρ)
      (Admission.integral.raise p.1 (p.1.denote .integral ρ) (x.denote .integral ρ))) :
    Gives (distributeAll factors e) (denoteList ρ)
      (factors.map (denoteRaised ρ (e.denote .integral ρ))).prod := by
  induction factors with
  | nil => exact .pure fun _ => rfl
  | cons p factors ihl =>
    obtain ⟨b, inner⟩ := p
    rw [List.forall_mem_cons] at ih
    rw [distributeAll, List.map_cons, List.prod_cons]
    refine (multiplyExponents_gives ρ inner e).bind (fun hs => ?_)
      (fun x => gives_cons (ih.1 x) (ihl ih.2)) fun x _ hx => by rw [hx]; rfl
    exact (Admission.isSome_of_raise (isSome_mul.mp hs).1).2

/-- A compound base has integer exponents only. -/
theorem raise_compound {b : Expr} {x y : Option ℚ} (hb : b.isAtom = false)
    (hs : (Admission.integral.raise b x y).isSome = true) : ∃ (n : ℤ) (v w : ℚ),
      y = some (n : ℚ) ∧ x = some v ∧ power? v n = some w ∧
        Admission.integral.raise b x y = some w := by
  obtain ⟨w, hw⟩ := Option.isSome_iff_exists.mp hs
  obtain ⟨v, q, rfl, rfl, ha, hpow⟩ := Admission.raise_eq_some.mp hw
  obtain ⟨n, rfl⟩ := (integral_admits.mp ha).resolve_left (by simp [hb])
  exact ⟨n, v, w, rfl, rfl, hpow, hw⟩

/-- **A base raised by the exponent laws has the value of the power**, provided that the exponent is
an integer or the base is a number or a variable. -/
theorem distribute_gives (b e : Expr) : Gives (distribute b e) (denote .integral ρ)
    (Admission.integral.raise b (b.denote .integral ρ) (e.denote .integral ρ)) := by
  induction b generalizing e with
  | num n => rw [distribute]; exact ofPower_gives _ _
  | var name => rw [distribute]; exact ofPower_gives _ _
  | power age b inner ih _ =>
    rw [distribute]
    refine (multiplyExponents_gives ρ inner e).bind (fun hs => ?_) ih fun x hs hx => ?_
    · obtain ⟨n, v, w, he, hv, -, -⟩ := raise_compound rfl hs
      rw [denote] at hv
      have hraise : (denoteFactor .integral ρ (b, inner)).isSome = true := by
        rw [denoteFactor, hv]
        rfl
      exact isSome_mul.mpr ⟨(Admission.isSome_of_raise hraise).2, by rw [he]; rfl⟩
    · obtain ⟨n, v, w, he, hv, hpow, hw⟩ := raise_compound rfl hs
      rw [denote] at hv
      rw [hw, hx, he]
      exact raise_mul_integer hv hpow
  | product age c factors ih =>
    rw [distribute]
    have hvalue : ∀ (hs : (Admission.integral.raise (.product age c factors)
          ((product age c factors).denote .integral ρ) (e.denote .integral ρ)).isSome = true),
        Admission.integral.raise (.num c) (some c.value) (e.denote .integral ρ) *
            (factors.map (denoteRaised ρ (e.denote .integral ρ))).prod =
          Admission.integral.raise (.product age c factors)
            ((product age c factors).denote .integral ρ) (e.denote .integral ρ) := by
      intro hs
      obtain ⟨n, v, w, he, hv, hpow, hw⟩ := raise_compound rfl hs
      rw [denote] at hv
      obtain ⟨x, y, hx, hy, rfl⟩ := mul_eq_some.mp hv
      obtain ⟨r, s, hr, hs, rfl⟩ := mul_eq_some.mp (mul_power? hpow)
      rw [hw, he, prod_denoteRaised hy hs, Option.some.inj hx, Admission.raise_integer, hr,
        some_mul_some]
    refine (distributeCoefficient_gives ρ c e).bind (fun hs => ?_)
      (fun first => gives_append first (distributeAll_gives e fun p hp x => (ih p hp).1 x))
      fun first hs h => ?_
    · rw [← hvalue hs] at hs
      exact (isSome_mul.mp hs).1
    · rw [h, hvalue hs]
  | sum age c summands => rw [distribute]; exact ofPower_gives _ _

/-! ## Simplification -/

/-- Base and exponent are simplified, then the base is raised. -/
theorem simplifyPower_gives {b e : Expr}
    (hb : Gives b.simplify (denote .integral ρ) (b.denote .integral ρ))
    (he : Gives e.simplify (denote .integral ρ) (e.denote .integral ρ)) :
    Gives (do let b ← b.simplify; distribute b (← e.simplify)) (denote .integral ρ)
      (denoteFactor .integral ρ (b, e)) := by
  have hexponent : ∀ b' : Expr, Gives (do distribute b' (← e.simplify)) (denote .integral ρ)
      (Admission.integral.raise b' (b'.denote .integral ρ) (e.denote .integral ρ)) := fun b' =>
    he.bind (fun hs => (Admission.isSome_of_raise hs).2) (distribute_gives b') fun e' _ h => by
      rw [h]
  by_cases hatom : b.isAtom = true
  · have hsimple : b.simplify = pure b := by
      cases b <;> first | rfl | exact nomatch hatom
    rw [hsimple, pure_bind]
    exact hexponent b
  · refine hb.bind (fun hs => (Admission.isSome_of_raise hs).1) hexponent fun b' hs h => ?_
    -- The simplified base may be of another kind, which makes no difference to an integer.
    obtain ⟨n, v, w, hn, hv, hpow, hw⟩ := raise_compound (by simpa using hatom) hs
    rw [denoteFactor, h, hw, hn, hv, Admission.raise_integer, hpow]

theorem simplifyFactors_gives {factors : List (Expr × Expr)}
    (ih : ∀ p ∈ factors, Gives p.1.simplify (denote .integral ρ) (p.1.denote .integral ρ) ∧
      Gives p.2.simplify (denote .integral ρ) (p.2.denote .integral ρ)) :
    Gives (simplifyFactors factors) (denoteList ρ) (denoteFactors .integral ρ factors) := by
  induction factors with
  | nil => exact .pure fun _ => rfl
  | cons p factors ihl =>
    obtain ⟨b, e⟩ := p
    rw [List.forall_mem_cons] at ih
    have hcons : simplifyFactors ((b, e) :: factors) =
        (do let b ← b.simplify; distribute b (← e.simplify)) >>= fun f =>
          simplifyFactors factors >>= fun es => return f :: es := by
      simp [simplifyFactors]
    rw [hcons]
    exact gives_cons (simplifyPower_gives ih.1.1 ih.1.2) (ihl ih.2)

def denoteTerms (ρ : String → Option ℚ) (terms : SignedTerms) : Option ℚ :=
  (terms.map fun p => some p.2.toNum.value * p.1.denote .integral ρ).sum

theorem simplifySummands_gives {summands : List (Expr × Num)}
    (ih : ∀ p ∈ summands, Gives p.1.simplify (denote .integral ρ) (p.1.denote .integral ρ)) :
    Gives (simplifySummands summands) (denoteTerms ρ) (denoteSummands .integral ρ summands) := by
  induction summands with
  | nil => exact .pure fun _ => rfl
  | cons p summands ihl =>
    obtain ⟨t, c⟩ := p
    rw [List.forall_mem_cons] at ih
    have hcons : ∀ e : Expr, Gives (do return (e, .plus) :: (← simplifySummands summands))
        (denoteTerms ρ) (e.denote .integral ρ + denoteSummands .integral ρ summands) := fun e =>
      (ihl ih.2).bind (fun h => (isSome_add.mp h).2) (fun es => .pure fun _ => rfl)
        fun es _ h => by
          rw [denoteTerms, List.map_cons, List.sum_cons, ← h, denoteTerms,
            show (some Sign.plus.toNum.value : Option ℚ) = 1 from rfl, one_mul]
    have hterm : ∀ e : Expr, Gives (do
        let product ← ofProduct [e, .num c] []
        return (product, .plus) :: (← simplifySummands summands)) (denoteTerms ρ)
        (some c.value * e.denote .integral ρ + denoteSummands .integral ρ summands) := by
      intro e
      have hlist : denoteList ρ [e, .num c] = some c.value * e.denote .integral ρ := by
        rw [denoteList, List.map_cons, List.map_singleton, List.prod_cons, List.prod_singleton,
          denote_num, mul_comm]
      have hproduct := ofProduct_gives_list ρ [e, .num c]
      rw [hlist] at hproduct
      exact hproduct.bind (fun h => (isSome_add.mp h).1) hcons fun p _ h => by rw [h]
    rw [simplifySummands, denoteSummands]
    exact ih.1.bind (fun h => (isSome_mul.mp (isSome_add.mp h).1).2) hterm fun e _ h => by rw [h]

/-- **A simplified expression has the value of the expression**, as long as only integers are
exponents of compound bases. -/
theorem simplify_gives (e : Expr) :
    Gives e.simplify (denote .integral ρ) (e.denote .integral ρ) := by
  induction e with
  | num n => exact .pure fun _ => rfl
  | var name => exact .pure fun _ => rfl
  | power age b e hb he => rw [simplify]; exact simplifyPower_gives hb he
  | product age c factors ih =>
    rw [simplify, denote]
    refine (simplifyFactors_gives ih).bind (fun h => (isSome_mul.mp h).2)
      (fun es => ofProduct_gives_list ρ (.num c :: es)) fun es _ h => ?_
    rw [denoteList, List.map_cons, List.prod_cons, denote_num, ← h, denoteList]
  | sum age c summands ih =>
    rw [simplify, denote]
    have hsum : ∀ terms : SignedTerms, Gives (ofSum (terms ++ [(.num c, .plus)]))
        (denote .integral ρ) (some c.value + denoteTerms ρ terms) := fun terms =>
      (ofSum_gives _).congr fun _ => by
        rw [List.map_append, List.sum_append, List.map_singleton, List.sum_singleton, denote_num,
          show (some Sign.plus.toNum.value : Option ℚ) = 1 from rfl, one_mul, add_comm, denoteTerms]
    exact (simplifySummands_gives ih).bind (fun h => (isSome_add.mp h).2) hsum fun terms _ h => by
      rw [h]

/-! ## Simplification and evaluation -/

end Expr

def Bindings.rational? (bindings : Bindings) (name : String) : Option ℚ :=
  match bindings.value? name with
  | some (.num n) => some n.value
  | _ => none

theorem Bindings.assigns {bindings : Bindings} (h : ∀ p ∈ bindings, p.2.isNum = true) :
    Assigns bindings.value? bindings.rational? := by
  intro name
  rw [Bindings.rational?]
  split
  next e he =>
    obtain ⟨p, hp, rfl⟩ := Option.map_eq_some_iff.mp he
    obtain ⟨n, hn⟩ := p.2.num_or.resolve_right (by rw [h p (List.mem_of_find?_eq_some hp)]; nofun)
    exact ⟨n, hn, by rw [he, hn]⟩
  next he => rw [he]

namespace Expr

/-- **Simplification agrees with evaluation.**  Where a tame expression evaluates to a number, it
simplifies, if all merges are timely, to an expression that evaluates to the same number. -/
theorem evaluate_simplify {e : Expr} {bindings : Bindings} (hb : ∀ p ∈ bindings, p.2.isNum = true)
    (htame : Tame bindings.rational? e) {s : Supply} {n : Num}
    (he : (e.evaluate bindings s).1 = .ok (.num n)) {t : Supply}
    (ht : (e.simplify t).2.timely = true) :
    ∃ e', (e.simplify t).1 = .ok e' ∧
      ∀ u, ∃ m, (e'.evaluate bindings u).1 = .ok (.num m) ∧ m.value = n.value := by
  have hassigns := Bindings.assigns hb
  have hvalue : e.denote .integral bindings.rational? = some n.value := by
    obtain ⟨m, hm, hden⟩ := (substitute_calculates hassigns htame).of_fst he
    obtain rfl := Expr.num.inj hm
    rw [denote_integral htame, hden]
  obtain ⟨e', he', hden'⟩ := (simplify_gives e).returns (simplify_finishes e) (fun h => h rfl) ht
    (by rw [hvalue]; rfl)
  rw [hvalue] at hden'
  have htame' : Tame bindings.rational? e' := tame_of_denote (by rw [hden']; rfl)
  refine ⟨e', he', fun u => ?_⟩
  exact (substitute_calculates hassigns htame').returns
    (by rw [← denote_integral htame', hden']) u

/-- The cube of a product of two variables, one of them negative. -/
theorem evaluate_simplify_cube :
    ∃ e', (simplify (.power 9 (.product 8 .one [(.var "x", .one), (.var "y", .one)])
        (.num ⟨3, 7⟩)) .initial).1 = .ok e' ∧
      ∀ u, ∃ m, (e'.evaluate [("x", .num ⟨-2, 5⟩), ("y", .num ⟨3, 6⟩)] u).1 = .ok (.num m) ∧
        m.value = -216 :=
  @evaluate_simplify _ [("x", .num ⟨-2, 5⟩), ("y", .num ⟨3, 6⟩)] (by simp [isNum])
    (.power 9 (.product 8 .one (by simp [Tame.var]) (by simp [one, Tame.num])
      (by simpa using ⟨.of_integer _ rfl, .of_integer _ rfl⟩)) (.num _) (.of_integer _ rfl))
    .initial ⟨-216, 10⟩ (by cbv) .initial (by cbv)

/-- The square root of a square does not simplify to a root of the same value: with `-1` for `x` the
one is `1`, the other `-1`. -/
theorem simplify_square_root : ¬ ∀ (e : Expr) (bindings : Bindings) (s : Supply) (n : Num),
    Obtainable e → (∀ p ∈ bindings, p.2.isNum = true) →
    (e.evaluate bindings s).1 = .ok (.num n) →
    ∃ e', (e.simplify s).1 = .ok e' ∧
      ∃ m, (e'.evaluate bindings s).1 = .ok (.num m) ∧ m.value = n.value := by
  intro h
  have hobtainable : Obtainable (.power 8 (.power 6 (.var "x") (.num ⟨2, 5⟩))
    (.num ⟨.ofRat (1 / 2), 7⟩)) :=
    @Obtainable.power _ _ _ ⟨8, id, true⟩
      (@Obtainable.power _ _ _ ⟨6, id, true⟩ (.var "x") (.num ⟨2, 5⟩) (by cbv))
        (.num ⟨.ofRat (1 / 2), 7⟩)
      (by cbv)
  obtain ⟨e', he', m, hm, hv⟩ := h _ [("x", .num ⟨-1, 9⟩)] ⟨10, id, true⟩ ⟨1, 1⟩ hobtainable
    (by simp [isNum]) (by cbv)
  have hsimple : (simplify (.power 8 (.power 6 (.var "x") (.num ⟨2, 5⟩)) (.num ⟨.ofRat (1 / 2), 7⟩))
      ⟨10, id, true⟩).1 = .ok (.var "x") := by cbv
  rw [hsimple] at he'
  obtain rfl := Except.ok.inj he'
  have hvalue : (evaluate (.var "x") [("x", .num ⟨-1, 9⟩)] ⟨10, id, true⟩).1 =
      .ok (.num ⟨-1, 9⟩) := by cbv
  rw [hvalue] at hm
  obtain rfl := Expr.num.inj (Except.ok.inj hm)
  exact absurd hv (by decide)

end Expr

end ExactAlgebra
