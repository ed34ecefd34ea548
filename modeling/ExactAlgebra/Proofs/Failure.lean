import ExactAlgebra.Expr.Evaluate
import ExactAlgebra.Expr.Simplify
import ExactAlgebra.Proofs.Grammar.Logic
import ExactAlgebra.Proofs.Termination

/-!
# How constructions fail

A construction fails with a fault of what it is given: a text that is no expression, a division by
zero, an undefined power, or, when values are substituted, a variable without one.  Besides, an
entry that is to be merged may be missing; then the merge was not timely.  There is no other way to
fail.

* `Fault.Explained`: the faults that can occur, given whether all merges were timely.
  `Fault.Inherent`: those of them that need no substitution.
* `Build.FailsWith`: every fault of a construction, together with its being timely, satisfies `F`.
* `ofSum_inherent`, `ofProduct_inherent`, `parse_inherent`: no construction meets a variable without
  a value unless it substitutes.
* `substitute_explained`, `simplify_explained`, `parse_explained`: all faults of constructions can
  be explained.
-/

namespace ExactAlgebra

/-- The fault lies with what was given, or an entry was missing when a merge was not timely. -/
def Fault.Explained (timely : Bool) : Fault → Prop
  | .text _ => True
  | .divisionByZero _ => True
  | .undefinedPower _ _ => True
  | .unboundVariable _ => True
  | .missingEntry _ => timely = false
  | .emptyBinding => False
  | .exhausted => False

/-- The fault lies with what was given, and it is not that a variable has no value; or an entry was
missing when a merge was not timely. -/
def Fault.Inherent (timely : Bool) (f : Fault) : Prop :=
  f.Explained timely ∧ ∀ name, f ≠ .unboundVariable name

namespace Build

variable {α β : Type}

/-- Whenever the construction fails, the fault and whether all merges were timely satisfy `F`. -/
def FailsWith (m : Build α) (F : Bool → Fault → Prop) : Prop :=
  ∀ s e, (m s).1 = .error e → F (m s).2.timely e

namespace FailsWith

variable {m : Build α} {F F' : Bool → Fault → Prop}

theorem pure {a : α} : FailsWith (Pure.pure a) F := fun _ _ h => nomatch h

theorem throw {e : Fault} (h : ∀ timely, F timely e) :
    FailsWith (MonadExcept.throw e : Build α) F := by
  rintro s _ ⟨⟩
  exact h _

/-- What the first construction ensures may be used of what it returns. -/
theorem bind_ensures {P : α → Prop} {F' : Fault → Prop} {f : α → Build β} (h : FailsWith m F)
    (hP : m.Ensures P F') (hf : ∀ a, P a → FailsWith (f a) F) : FailsWith (m >>= f) F := by
  intro s e
  rw [run_bind]
  rcases hm : m s with ⟨a | a, s'⟩
  · rintro ⟨⟩
    have hfault := h s e
    rw [hm] at hfault
    exact hfault rfl
  · exact hf a (hP.ok hm) s' e

theorem bind {f : α → Build β} (h : FailsWith m F) (hf : ∀ a, FailsWith (f a) F) :
    FailsWith (m >>= f) F := h.bind_ensures (ensures_true m) fun a _ => hf a

theorem fresh : FailsWith Build.fresh F := fun _ _ h => nomatch h

theorem observe (c : Bool) : FailsWith (Build.observe c) F := fun _ _ h => nomatch h

/-- After a merge that is not timely, there is no timely failure. -/
theorem observe_throw {e : Fault} (h : F false e) :
    FailsWith (do Build.observe false; MonadExcept.throw e : Build α) F := by
  rintro s _ ⟨⟩
  change F (s.timely && false) e
  rwa [Bool.and_false]

theorem ite {c : Prop} [Decidable c] {m' : Build α} (h : FailsWith m F) (h' : FailsWith m' F) :
    FailsWith (if c then m else m') F := by
  split
  · exact h
  · exact h'

/-- A fold fails like its steps. -/
theorem foldlM {f : β → α → Build β} (h : ∀ b a, FailsWith (f b a) F) (l : List α) (b : β) :
    FailsWith (l.foldlM f b) F := by
  induction l generalizing b with
  | nil => rw [List.foldlM_nil]; exact .pure
  | cons a l ih =>
    rw [List.foldlM_cons]
    exact (h b a).bind ih

theorem mono (h : FailsWith m F) (hF : ∀ timely e, F timely e → F' timely e) : FailsWith m F' :=
  fun s e he => hF _ _ (h s e he)

end FailsWith

/-- Every fault of the construction can be explained. -/
abbrev Explained (m : Build α) : Prop := m.FailsWith fun timely e => e.Explained timely

/-- Every fault of the construction can be explained without a variable that has no value. -/
abbrev Inherent (m : Build α) : Prop := m.FailsWith fun timely e => e.Inherent timely

/-- The same, as long as the construction does not exhaust its steps. -/
abbrev InherentUnlessExhausted (m : Build α) : Prop :=
  m.FailsWith fun timely e => e = .exhausted ∨ e.Inherent timely

theorem Inherent.explained {m : Build α} (h : Inherent m) : Explained m :=
  h.mono fun _ _ => And.left

theorem Inherent.of_finishes {m : Build α} {P : α → Prop} (h : InherentUnlessExhausted m)
    (hm : Finishes m P) : Inherent m := by
  intro s e he
  have hs := hm s
  rw [he] at hs
  exact (h s e he).resolve_left hs

end Build

open Build ExactAlgebra.Expr

/-! ## Numbers and powers -/

namespace Num

variable {F : Bool → Fault → Prop}

theorem new_fails (r : Ratio) : FailsWith (Num.new r) F := FailsWith.fresh.bind fun _ => .pure

theorem divide_fails (a b : Num) : InherentUnlessExhausted (a.divide b) := by
  rw [divide_eq]
  exact .ite (.throw fun _ => .inr ⟨trivial, nofun⟩) (new_fails _)

theorem integerPower_fails (b e : Num) : FailsWith (b.integerPower e) F :=
  .ite (FailsWith.fresh.bind fun _ => FailsWith.fresh.bind fun _ => new_fails _) (new_fails _)

theorem toPower_inherent (b e : Num) : Inherent (b.toPower e) := by
  rw [toPower_eq]
  exact .ite .pure (.ite (.ite .pure (.throw fun _ => ⟨trivial, nofun⟩))
    (.ite ((integerPower_fails b e).bind fun _ => .pure) (FailsWith.fresh.bind fun _ => .pure)))

end Num

namespace Expr

theorem ofPower_inherent (b e : Expr) : Inherent (ofPower b e) := by
  rcases b.num_or with ⟨m, rfl⟩ | hb
  · rcases e.num_or with ⟨n, rfl⟩ | he
    · exact Num.toPower_inherent m n
    · rw [ofPower_num m he]
      exact .ite .pure (FailsWith.fresh.bind fun _ => .pure)
  · rw [ofPower_symbolic hb]
    exact .ite .pure (.ite .pure (FailsWith.fresh.bind fun _ => .pure))

theorem ofPower_explained (b e : Expr) : Explained (ofPower b e) := (ofPower_inherent b e).explained

theorem separate_fails (age : Nat) (c : Num) (factors : List (Expr × Expr)) :
    InherentUnlessExhausted (separate age c factors) := by
  unfold separate
  split
  · exact ((ofPower_inherent _ _).mono fun _ _ => .inr).bind fun _ => .pure
  · exact .ite .pure (FailsWith.fresh.bind fun _ => .pure)

end Expr

/-! ## Drafts -/

namespace ProductDraft

variable {sum : SignedTerms → Build Expr} (hsum : ∀ terms, InherentUnlessExhausted (sum terms))
  (d : ProductDraft)

include hsum in
theorem addExponents_fails (a b : Expr) : InherentUnlessExhausted (addExponents sum a b) := by
  unfold addExponents
  split
  · exact (Num.new_fails _).bind fun _ => .pure
  · exact hsum _

include hsum in
theorem signedExponent_fails (e : Expr) (sign : Sign) :
    InherentUnlessExhausted (signedExponent sum e sign) := by
  cases sign with
  | plus => exact .pure
  | minus =>
    cases e with
    | num n => exact (Num.new_fails _).bind fun _ => .pure
    | _ => exact hsum _

theorem scale_fails (n : Num) (sign : Sign) : InherentUnlessExhausted (d.scale n sign) := by
  cases sign with
  | plus => exact (Num.new_fails _).bind fun _ => .pure
  | minus => exact (Num.divide_fails _ _).bind fun _ => .pure

include hsum in
theorem enter_fails (base exponent : Expr) :
    InherentUnlessExhausted (d.enter sum base exponent) := by
  have hpost : InherentUnlessExhausted (d.exponents.post (rule sum) base exponent) :=
    (addExponents_fails hsum _ _).bind fun _ => .pure
  exact hpost.bind fun _ => .pure

include hsum in
theorem enterAll_fails (sign : Sign) (factors : List (Expr × Expr)) :
    InherentUnlessExhausted (d.enterAll sum sign factors) := by
  refine FailsWith.foldlM (fun d p => ?_) factors d
  exact (signedExponent_fails hsum p.2 sign).bind fun _ => enter_fails hsum d p.1 _

include hsum in
theorem absorb_fails (factor : Expr) (sign : Sign) :
    InherentUnlessExhausted (d.absorb sum factor sign) := by
  cases factor with
  | num n => exact scale_fails d n sign
  | power age b e =>
    refine .ite ?_ ?_
    · exact enter_fails hsum d _ _
    · exact (signedExponent_fails hsum e sign).bind fun _ => enter_fails hsum d b _
  | product age c factors =>
    exact (scale_fails d c sign).bind fun d => enterAll_fails hsum d sign factors
  | var name => exact enter_fails hsum d _ _
  | sum age c summands => exact enter_fails hsum d _ _

include hsum in
theorem unnest_fails (base : Expr) : InherentUnlessExhausted (d.unnest sum base) := by
  unfold unnest
  split
  · exact (FailsWith.observe _).bind fun _ => absorb_fails hsum _ _ _
  · exact .observe_throw (.inr ⟨rfl, nofun⟩)

include hsum in
theorem flatten_fails (rounds : Nat) : InherentUnlessExhausted (d.flatten sum rounds) := by
  induction rounds generalizing d with
  | zero => exact .throw fun _ => .inl rfl
  | succ rounds ih =>
    rw [flatten]
    split
    · exact .pure
    · exact (FailsWith.foldlM (unnest_fails hsum) _ d).bind ih

theorem collapse_fails : InherentUnlessExhausted d.collapse := by
  refine .ite .pure ?_
  split
  · exact .pure
  · exact .ite ((ofPower_inherent _ _).mono fun _ _ => .inr) (FailsWith.fresh.bind fun _ => .pure)
  · exact FailsWith.fresh.bind fun _ => .pure

end ProductDraft

namespace SumDraft

variable (d : SumDraft)

theorem shift_fails (n scale : Num) : InherentUnlessExhausted (d.shift n scale) :=
  (Num.new_fails _).bind fun _ => (Num.new_fails _).bind fun _ => .pure

theorem enter_fails (term : Expr) (c : Num) : InherentUnlessExhausted (d.enter term c) := by
  have hpost : InherentUnlessExhausted (d.coefficients.post rule term c) :=
    (Num.new_fails _).bind fun _ => .pure
  exact hpost.bind fun _ => .pure

theorem enterAll_fails (scale : Num) (summands : List (Expr × Num)) : InherentUnlessExhausted
    (summands.foldlM (fun d (t, c) => do d.enter t (← c.multiply scale)) d) := by
  refine FailsWith.foldlM (fun d p => ?_) summands d
  exact (Num.new_fails _).bind fun _ => enter_fails d p.1 _

theorem absorb_fails (term : Expr) (scale : Num) :
    InherentUnlessExhausted (d.absorb term scale) := by
  cases term with
  | num n => exact shift_fails d n scale
  | product age c factors =>
    exact (separate_fails age c factors).bind fun _ => (Num.new_fails _).bind fun _ =>
      enter_fails d _ _
  | sum age c summands =>
    exact (shift_fails d c scale).bind fun d => enterAll_fails d scale summands
  | var name => exact enter_fails d _ _
  | power age b e => exact enter_fails d _ _

theorem unnest_fails (term : Expr) : InherentUnlessExhausted (d.unnest term) := by
  unfold unnest
  split
  · exact (FailsWith.observe _).bind fun _ => absorb_fails _ _ _
  · exact .observe_throw (.inr ⟨rfl, nofun⟩)

theorem flatten_fails (rounds : Nat) : InherentUnlessExhausted (d.flatten rounds) := by
  induction rounds generalizing d with
  | zero => exact .throw fun _ => .inl rfl
  | succ rounds ih =>
    rw [flatten]
    split
    · exact .pure
    · exact (FailsWith.foldlM unnest_fails _ d).bind ih

theorem collapse_fails {product : List Expr → Build Expr}
    (hproduct : ∀ factors, InherentUnlessExhausted (product factors)) :
    InherentUnlessExhausted (d.collapse product) := by
  unfold collapse
  split
  · exact .pure
  · exact .ite (hproduct _) (FailsWith.fresh.bind fun _ => .pure)
  · exact FailsWith.fresh.bind fun _ => .pure

end SumDraft

/-! ## Products and sums -/

namespace Expr

theorem productWith_fails {sum : SignedTerms → Build Expr}
    (hsum : ∀ terms, InherentUnlessExhausted (sum terms)) (factors divisors : List Expr) :
    InherentUnlessExhausted (productWith sum factors divisors) := by
  have hfold : ∀ sign (l : List Expr) (d : ProductDraft),
      InherentUnlessExhausted (l.foldlM (fun d e => d.absorb sum e sign) d) := fun sign =>
    FailsWith.foldlM fun d e => d.absorb_fails hsum e sign
  refine FailsWith.bind ((hfold .plus factors _).bind fun d => hfold .minus divisors d) fun d => ?_
  exact (d.flatten_fails hsum _).bind fun d => d.collapse_fails

theorem sumAt_fails (level : Nat) (terms : SignedTerms) :
    InherentUnlessExhausted (sumAt level terms) := by
  induction level generalizing terms with
  | zero => exact .throw fun _ => .inl rfl
  | succ level ih =>
    refine (FailsWith.foldlM (fun d p => d.absorb_fails p.1 _) terms _).bind fun d => ?_
    exact (d.flatten_fails _).bind fun d =>
      d.collapse_fails fun factors => productWith_fails ih factors []

/-- **All faults of sums can be explained**, and no variable without a value is among them. -/
theorem ofSum_inherent (terms : SignedTerms) : Inherent (ofSum terms) :=
  .of_finishes (sumAt_fails _ terms) (ofSum_finishes terms)

/-- **All faults of products can be explained**, and no variable without a value is among them. -/
theorem ofProduct_inherent (factors divisors : List Expr) : Inherent (ofProduct factors divisors) :=
  .of_finishes (productWith_fails (sumAt_fails _) factors divisors)
    (ofProduct_finishes factors divisors)

theorem neg_inherent (e : Expr) : Inherent e.neg := by
  cases e with
  | num n => exact (Num.new_fails _).bind fun _ => .pure
  | _ => exact ofSum_inherent _

theorem neg_explained (e : Expr) : Explained e.neg := (neg_inherent e).explained

/-! ## Substitution and simplification -/

theorem substitute_explained (value : String → Option Expr) (e : Expr) :
    Explained (e.substitute value) := by
  induction e with
  | num n => exact .pure
  | var name =>
    rw [substitute]
    split
    · exact .pure
    · exact .throw fun _ => trivial
  | power age b e hb he =>
    rw [substitute]
    exact hb.bind fun _ => he.bind fun _ => ofPower_explained _ _
  | product age c factors ih =>
    have hfactors : Explained (substituteFactors value factors) := by
      induction factors with
      | nil => exact .pure
      | cons p factors ihl =>
        rw [List.forall_mem_cons] at ih
        exact ih.1.1.bind fun _ => ih.1.2.bind fun _ => (ofPower_explained _ _).bind fun _ =>
          (ihl ih.2).bind fun _ => .pure
    rw [substitute]
    exact hfactors.bind fun _ => (ofProduct_inherent _ _).explained
  | sum age c summands ih =>
    have hsummands : Explained (substituteSummands value summands) := by
      induction summands with
      | nil => exact .pure
      | cons p summands ihl =>
        rw [List.forall_mem_cons] at ih
        exact ih.1.bind fun _ => (ofProduct_inherent _ _).explained.bind fun _ =>
          (ihl ih.2).bind fun _ => .pure
    rw [substitute]
    exact hsummands.bind fun _ => (ofSum_inherent _).explained

theorem distribute_inherent (base exponent : Expr) : Inherent (distribute base exponent) := by
  induction base generalizing exponent with
  | num n => rw [distribute]; exact ofPower_inherent _ _
  | var name => rw [distribute]; exact ofPower_inherent _ _
  | power age b e ih _ =>
    rw [distribute]
    exact (ofProduct_inherent _ _).bind fun _ => ih _
  | product age c factors ih =>
    have hcoefficient : Inherent (distributeCoefficient c exponent) :=
      .ite .pure ((ofProduct_inherent _ _).bind fun _ => (ofPower_inherent _ _).bind fun _ =>
        .pure)
    have hall : Inherent (distributeAll factors exponent) := by
      induction factors with
      | nil => exact .pure
      | cons p factors ihl =>
        rw [List.forall_mem_cons] at ih
        exact (ofProduct_inherent _ _).bind fun _ => (ih.1.1 _).bind fun _ =>
          (ihl ih.2).bind fun _ => .pure
    rw [distribute]
    exact hcoefficient.bind fun _ => hall.bind fun _ => ofProduct_inherent _ _
  | sum age c summands => rw [distribute]; exact ofPower_inherent _ _

theorem simplify_inherent (e : Expr) : Inherent e.simplify := by
  induction e with
  | num n => exact .pure
  | var name => exact .pure
  | power age b e hb he =>
    rw [simplify]
    exact hb.bind fun _ => he.bind fun _ => distribute_inherent _ _
  | product age c factors ih =>
    have hfactors : Inherent (simplifyFactors factors) := by
      induction factors with
      | nil => exact .pure
      | cons p factors ihl =>
        rw [List.forall_mem_cons] at ih
        exact ih.1.1.bind fun _ => ih.1.2.bind fun _ => (distribute_inherent _ _).bind fun _ =>
          (ihl ih.2).bind fun _ => .pure
    rw [simplify]
    exact hfactors.bind fun _ => ofProduct_inherent _ _
  | sum age c summands ih =>
    have hsummands : Inherent (simplifySummands summands) := by
      induction summands with
      | nil => exact .pure
      | cons p summands ihl =>
        rw [List.forall_mem_cons] at ih
        exact ih.1.bind fun _ => (ofProduct_inherent _ _).bind fun _ =>
          (ihl ih.2).bind fun _ => .pure
    rw [simplify]
    exact hsummands.bind fun _ => ofSum_inherent _

theorem simplify_explained (e : Expr) : Explained e.simplify := (simplify_inherent e).explained

end Expr

/-! ## Parsing -/

theorem Atom.build_inherent (a : Atom) : Inherent a.build := by
  cases a with
  | number n => rw [build_number]; exact (Num.new_fails _).bind fun _ => .pure
  | «variable» name => exact .pure

def inherentLogic : Grammar.Logic Unit where
  Holds _ m P := Inherent m ∧ m.Ensures (P ()) fun _ => True
  pure h := ⟨.pure, .pure h⟩
  throw := ⟨.throw fun _ => ⟨trivial, nofun⟩, .throw trivial⟩
  bind h hf := ⟨h.1.bind_ensures h.2 fun a ha => (hf () a le_rfl ha).1,
    h.2.bind fun a ha => (hf () a le_rfl ha).2⟩

theorem inherentLogic_keeps : inherentLogic.Keeps fun _ _ => True where
  mono _ _ := trivial
  atom _ a := ⟨a.build_inherent, ensures_true _⟩
  neg _ := ⟨neg_inherent _, ensures_true _⟩
  ofPower _ _ := ⟨ofPower_inherent _ _, ensures_true _⟩
  ofProduct _ _ := ⟨ofProduct_inherent _ _, ensures_true _⟩
  ofSum _ := ⟨ofSum_inherent _, ensures_true _⟩

/-- **All faults of parsing can be explained**, and no variable without a value is among them. -/
theorem Expr.parse_inherent (limit : Int) (source : String) : Inherent (parse limit source) :=
  (inherentLogic_keeps.parse source limit ()).1

theorem Expr.parse_explained (limit : Int) (source : String) : Explained (parse limit source) :=
  (parse_inherent limit source).explained

end ExactAlgebra
