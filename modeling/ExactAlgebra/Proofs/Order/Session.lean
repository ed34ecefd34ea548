import ExactAlgebra.Expr.Operators
import ExactAlgebra.Proofs.Grammar.Logic
import ExactAlgebra.Proofs.Order.Draft
import ExactAlgebra.Proofs.Traversal

/-!
# Sessions

A session is a sequence of operations on expressions that have been obtained before.  All of them
draw from one supply of ages, so that a registry grows along with the session.

* `Operation`: what can be done with some expressions.
* `Session`: the supply, and the expressions obtained so far.
* `Operation.builds`: operations on known nodes return known nodes.
* `Session.registered`: all that has been obtained is known, and older than what comes next.
* `Session.apart`: unequal nodes of a session are apart.
* `Expr.entries_ordered`: nodes that are apart are strictly ordered, and so are the entries of every
  product and every sum of a session.
-/

namespace ExactAlgebra

open Build ExactAlgebra.Expr

namespace Expr

variable {R : Registry}

/-! ## Operators -/

theorem apply_builds (op : Arithmetic) {a b : Expr} (ha : a ∈ R.nodes) (hb : b ∈ R.nodes) :
    Builds R (apply op a b) := by
  have hgeneral : Builds R (applyGenerally op a b) := by
    cases op with
    | add => exact ofSum_builds (by simpa using ⟨ha, hb⟩)
    | subtract => exact ofSum_builds (by simpa using ⟨ha, hb⟩)
    | multiply => exact ofProduct_builds (by simpa using ⟨ha, hb⟩) (List.forall_mem_nil _)
    | divide => exact ofProduct_builds (by simpa using ha) (by simpa using hb)
    | power => exact ofPower_builds ha hb
  unfold apply
  split
  next m n =>
    cases op with
    | power => exact toPower_builds
    | divide => exact .number (Num.divide_registers _ _)
    | _ => exact .number (Num.new_registers _)
  · exact hgeneral

theorem reciprocal_builds {e : Expr} (he : e ∈ R.nodes) : Builds R e.reciprocal := by
  have hp : Builds R (ofProduct [.one] [e]) :=
    ofProduct_builds (by simpa using R.leaf rfl) (by simpa using he)
  cases e with
  | num n => exact .number (Num.reciprocal_registers _)
  | _ => exact hp

/-! ## Entry by entry -/

theorem factorsWith_registers {power : Expr → Expr → Build Expr} {factors : List (Expr × Expr)}
    (h : ∀ p ∈ factors, ∀ R', R ≤ R' → Builds R' (power p.1 p.2)) :
    (factorsWith power factors).Registers R fun R' xs => ∀ x ∈ xs, x ∈ R'.nodes := by
  induction factors generalizing R with
  | nil => exact .pure (List.forall_mem_nil _)
  | cons p factors ih =>
    rw [List.forall_mem_cons] at h
    refine (h.1 R (le_refl R)).bind fun R₁ x hle hx => ?_
    have hrest := ih fun q hq R' hle' => h.2 q hq R' (hle.trans hle')
    exact hrest.bind fun R₂ xs hle' hxs => .pure (List.forall_mem_cons.mpr ⟨hle' hx, hxs⟩)

theorem summandsWith_registers {term : Expr → Build Expr} {summands : List (Expr × Num)}
    (h : ∀ p ∈ summands, ∀ R', R ≤ R' → Builds R' (term p.1)) :
    (summandsWith term summands).Registers R fun R' ts => ∀ p ∈ ts, p.1 ∈ R'.nodes := by
  induction summands generalizing R with
  | nil => exact .pure (List.forall_mem_nil _)
  | cons p summands ih =>
    rw [List.forall_mem_cons] at h
    refine (h.1 R (le_refl R)).bind fun R₁ t hle ht => ?_
    have hproduct : Builds R₁ (ofProduct [t, .num p.2] []) :=
      ofProduct_builds (by simpa using ⟨ht, R₁.leaf rfl⟩) (List.forall_mem_nil _)
    refine hproduct.bind fun R₂ x hle' hx => ?_
    have hrest := ih fun q hq R' hle'' => h.2 q hq R' ((hle.trans hle').trans hle'')
    exact hrest.bind fun R₃ ts hle'' hts => .pure (List.forall_mem_cons.mpr ⟨hle'' hx, hts⟩)

/-- A product whose entries have been worked on. -/
theorem factors_builds {power : Expr → Expr → Build Expr} {factors : List (Expr × Expr)} (c : Num)
    (h : ∀ p ∈ factors, ∀ R', R ≤ R' → Builds R' (power p.1 p.2)) :
    Builds R (do ofProduct (.num c :: (← factorsWith power factors)) []) :=
  (factorsWith_registers h).bind fun R' _ _ hxs =>
    ofProduct_builds (List.forall_mem_cons.mpr ⟨R'.leaf rfl, hxs⟩) (List.forall_mem_nil _)

/-- A sum whose entries have been worked on. -/
theorem summands_builds {term : Expr → Build Expr} {summands : List (Expr × Num)} (c : Num)
    (h : ∀ p ∈ summands, ∀ R', R ≤ R' → Builds R' (term p.1)) :
    Builds R (do ofSum ((← summandsWith term summands) ++ [(.num c, .plus)])) :=
  (summandsWith_registers h).bind fun R' _ _ hts =>
    ofSum_builds (List.forall_mem_append.mpr ⟨hts, by simpa using R'.leaf rfl⟩)

/-! ## Substitution and exponent laws -/

theorem substitute_builds {value : String → Option Expr} (e : Expr)
    (hv : ∀ name x, value name = some x → x ∈ R.nodes) : Builds R (e.substitute value) := by
  induction e generalizing R with
  | num n => exact .pure (R.leaf rfl)
  | var name =>
    rw [substitute]
    split
    next x hx => exact .pure (hv name x hx)
    next => exact .throw
  | power age b e ihb ihe =>
    rw [substitute]
    refine (ihb hv).bind fun R₁ b' hle hb => ?_
    refine (ihe fun name x hx => hle (hv name x hx)).bind fun R₂ e' hle' he => ?_
    exact ofPower_builds (hle' hb) he
  | product age c factors ih =>
    rw [substitute, substituteFactors_eq]
    refine factors_builds c fun p hp R' hle => ?_
    have hv' : ∀ name x, value name = some x → x ∈ R'.nodes := fun name x hx => hle (hv name x hx)
    refine ((ih p hp).1 hv').bind fun R₁ b' hle₁ hb => ?_
    refine ((ih p hp).2 fun name x hx => hle₁ (hv' name x hx)).bind fun R₂ e' hle₂ he => ?_
    exact ofPower_builds (hle₂ hb) he
  | sum age c summands ih =>
    rw [substitute, substituteSummands_eq]
    exact summands_builds c fun p hp R' hle => ih p hp fun name x hx => hle (hv name x hx)

theorem evaluate_builds (e : Expr) {bindings : Bindings} (hb : ∀ p ∈ bindings, p.2 ∈ R.nodes) :
    Builds R (e.evaluate bindings) := by
  refine substitute_builds e fun name x hx => ?_
  obtain ⟨p, hp, rfl⟩ := Option.map_eq_some_iff.mp hx
  exact hb p (List.mem_of_find?_eq_some hp)

theorem multiplyExponents_builds {a b : Expr} (ha : a ∈ R.nodes) (hb : b ∈ R.nodes) :
    Builds R (multiplyExponents a b) :=
  ofProduct_builds (by simpa using ⟨ha, hb⟩) (List.forall_mem_nil _)

theorem distributeCoefficient_registers (c : Num) {e : Expr} (he : e ∈ R.nodes) :
    (distributeCoefficient c e).Registers R fun R' xs => ∀ x ∈ xs, x ∈ R'.nodes := by
  refine .ite (fun _ => .pure (List.forall_mem_nil _)) fun _ => ?_
  refine (multiplyExponents_builds (R.leaf rfl) he).bind fun R₁ y _ hy => ?_
  exact (ofPower_builds (R₁.leaf rfl) hy).bind fun _ x _ hx => .pure (by simpa using hx)

theorem distribute_builds {b e : Expr} (hb : b ∈ R.nodes) (he : e ∈ R.nodes) :
    Builds R (distribute b e) := by
  induction b generalizing R e with
  | num n => exact ofPower_builds hb he
  | var name => exact ofPower_builds hb he
  | power age b x ihb _ =>
    refine (multiplyExponents_builds (Registry.power_exponent hb) he).bind fun R' y hle hy => ?_
    exact ihb (hle (Registry.power_base hb)) hy
  | product age c factors ih =>
    rw [distribute, distributeAll_eq]
    -- The entries and the exponent are still known when their turn comes.
    refine (distributeCoefficient_registers c he).bind fun R₁ xs hle hxs => ?_
    refine (factorsWith_registers fun p hp R' hle' => ?_).bind fun R₂ ys hle' hys =>
      ofProduct_builds (List.forall_mem_append.mpr ⟨fun x hx => hle' (hxs x hx), hys⟩)
        (List.forall_mem_nil _)
    have hle₂ := hle.trans hle'
    refine (multiplyExponents_builds (hle₂ (Registry.exponent hb hp)) (hle₂ he)).bind
      fun U y hU hy => ?_
    exact (ih p hp).1 (hU (hle₂ (Registry.base hb hp))) hy
  | sum age c summands _ => exact ofPower_builds hb he

theorem simplify_builds (e : Expr) : Builds R e.simplify := by
  induction e generalizing R with
  | num n => exact .pure (R.leaf rfl)
  | var name => exact .pure (R.leaf rfl)
  | power age b e ihb ihe =>
    exact ihb.bind fun _ b' _ hb => ihe.bind fun _ e' hle he => distribute_builds (hle hb) he
  | product age c factors ih =>
    rw [simplify, simplifyFactors_eq]
    refine factors_builds c fun p hp R' _ => ?_
    exact (ih p hp).1.bind fun _ b' _ hb => (ih p hp).2.bind fun _ e' hle he =>
      distribute_builds (hle hb) he
  | sum age c summands ih =>
    rw [simplify, simplifySummands_eq]
    exact summands_builds c fun p hp _ _ => ih p hp

end Expr

/-! ## Parsing -/

theorem Atom.build_builds (R : Registry) (a : Atom) : Builds R a.build := by
  cases a with
  | number n =>
    rw [build_number]
    exact (Num.new_registers _).bind fun R' _ _ _ => .pure (R'.leaf rfl)
  | «variable» name => exact .pure (R.leaf rfl)

def registryLogic : Grammar.Logic Registry where
  Holds R m P := m.Registers R P
  pure := .pure
  throw := .throw
  bind := .bind

theorem registryLogic_keeps : registryLogic.Keeps fun R e => e ∈ R.nodes where
  mono hle he := hle he
  atom := Atom.build_builds
  neg := neg_builds
  ofPower := ofPower_builds
  ofProduct := ofProduct_builds
  ofSum := ofSum_builds

theorem Expr.parse_builds {R : Registry} (limit : Int) (source : String) :
    Builds R (parse limit source) := registryLogic_keeps.parse source limit R

/-! ## Sessions -/

inductive Operation (es : List Expr) : Build Expr → Prop where
  | power {b e : Expr} (hb : b ∈ es) (he : e ∈ es) : Operation es (ofPower b e)
  | product {factors divisors : List Expr} (hf : ∀ x ∈ factors, x ∈ es)
    (hx : ∀ x ∈ divisors, x ∈ es) : Operation es (ofProduct factors divisors)
  | sum {terms : SignedTerms} (ht : ∀ p ∈ terms, p.1 ∈ es) : Operation es (ofSum terms)
  | neg {e : Expr} (he : e ∈ es) : Operation es e.neg
  | apply (op : Arithmetic) {a b : Expr} (ha : a ∈ es) (hb : b ∈ es) : Operation es (apply op a b)
  | reciprocal {e : Expr} (he : e ∈ es) : Operation es e.reciprocal
  | separate {age : Nat} {c : Num} {factors : List (Expr × Expr)}
    (h : .product age c factors ∈ es) : Operation es (do return (← separate age c factors).2)
  | parse (limit : Int) (source : String) : Operation es (parse limit source)
  | evaluate {e : Expr} {bindings : Bindings} (he : e ∈ es) (hb : ∀ p ∈ bindings, p.2 ∈ es) :
    Operation es (e.evaluate bindings)
  | simplify {e : Expr} (he : e ∈ es) : Operation es e.simplify

/-- A sequence of operations, the supply it has left and the expressions that it has obtained. -/
inductive Session : Supply → List Expr → Prop where
  | start {s : Supply} (hs : s.Ascending) : Session s []
  /-- Ages are given out to nodes that the session does not see. -/
  | skip {s t : Supply} {es : List Expr} (h : Session s es) (ht : s.Precedes t) : Session t es
  | leaf {s : Supply} {es : List Expr} {e : Expr} (h : Session s es) (he : e.isLeaf = true) :
    Session s (e :: es)
  | part {s : Supply} {es : List Expr} {e d : Expr} (h : Session s es) (he : e ∈ es)
    (hd : d ∈ e.parts) : Session s (d :: es)
  | step {s : Supply} {es : List Expr} {m : Build Expr} (h : Session s es) (hm : Operation es m) :
    Session (m s).2 ((m s).1.toOption.toList ++ es)

/-- Operations on known nodes return known nodes. -/
theorem Operation.builds {R : Registry} {es : List Expr} {m : Build Expr} (hm : Operation es m)
    (h : ∀ e ∈ es, e ∈ R.nodes) : Builds R m := by
  cases hm with
  | power hb he => exact ofPower_builds (h _ hb) (h _ he)
  | product hf hx =>
    exact ofProduct_builds (fun x hmem => h x (hf x hmem)) fun x hmem => h x (hx x hmem)
  | sum ht => exact ofSum_builds fun p hp => h _ (ht p hp)
  | neg he => exact neg_builds (h _ he)
  | apply op ha hb => exact apply_builds op (h _ ha) (h _ hb)
  | reciprocal he => exact reciprocal_builds (h _ he)
  | separate he => exact (separate_registers (h _ he)).bind fun _ _ _ hp => .pure hp.1
  | parse limit source => exact parse_builds limit source
  | evaluate he hb => exact evaluate_builds _ fun p hp => h _ (hb p hp)
  | simplify he => exact simplify_builds _

/-- **All that a session has obtained is known, and older than what comes next.** -/
theorem Session.registered {s : Supply} {es : List Expr} (h : Session s es) :
    ∃ R : Registry, R.Below s ∧ ∀ e ∈ es, e ∈ R.nodes := by
  induction h with
  | start hs =>
    refine ⟨.leaves, ⟨hs, fun he hl => ?_⟩, List.forall_mem_nil _⟩
    rw [show _ = true from he] at hl
    exact nomatch hl
  | skip h ht ih =>
    obtain ⟨R, hs, hes⟩ := ih
    exact ⟨R, hs.precedes ht, hes⟩
  | leaf h he ih =>
    obtain ⟨R, hs, hes⟩ := ih
    exact ⟨R, hs, List.forall_mem_cons.mpr ⟨R.leaf he, hes⟩⟩
  | part h he hd ih =>
    obtain ⟨R, hs, hes⟩ := ih
    exact ⟨R, hs, List.forall_mem_cons.mpr ⟨R.part (hes _ he) hd, hes⟩⟩
  | @step s es m h hm ih =>
    obtain ⟨R, hs, hes⟩ := ih
    -- The operation draws from the supply that the session has left.
    obtain ⟨R', hle, hbelow, hr⟩ := hm.builds hes s hs
    have hnew : ∀ e ∈ (m s).1.toOption.toList, e ∈ R'.nodes := by
      intro e he
      cases hm : (m s).1 with
      | error fault =>
        rw [hm] at he
        exact nomatch he
      | ok r =>
        rw [hm] at he
        rw [List.mem_singleton.mp he]
        exact hr r hm
    exact ⟨R', hbelow, List.forall_mem_append.mpr ⟨hnew, fun e he => hle (hes e he)⟩⟩

/-- Unequal nodes of a session are apart, unless they are numbers. -/
theorem Session.apart {s : Supply} {es l : List Expr} (h : Session s es) (hl : l ⊆ es)
    (hne : l.Pairwise fun a b => (a == b) = false) (hn : ∀ e ∈ l, e.isNum = false) : Apart l := by
  obtain ⟨R, -, hes⟩ := h.registered
  exact Registry.apart hne fun e he => ⟨hes e (hl he), hn e he⟩

namespace Expr

/-- **Entries stand in a canonical order.**  Both comparisons are strict total orders on nodes that
are apart, and put the kinds of nodes one after the other.  In every product and every sum that a
session obtains, the entries are strictly ascending, they are those of the final tally of the run
that has returned the node, and their order depends on nothing but the keys of that tally. -/
theorem entries_ordered :
    (∀ l : List Expr, Apart l → OrdersStrictly compareBases l ∧ OrdersStrictly compareTerms l) ∧
      (∀ (n : Num) (name : String) (i j k : Nat) (b e : Expr) (c d : Num)
        (factors : List (Expr × Expr)) (summands : List (Expr × Num)),
        ([.num n, .var name, .product i c factors, .power j b e, .sum k d summands].Pairwise
          fun x y => compareBases x y = .lt) ∧
        [.power j b e, .product i c factors, .var name, .sum k d summands, .num n].Pairwise
          fun x y => compareTerms x y = .lt) ∧
      ∀ (s : Supply) (es : List Expr), Session s es → ∀ e ∈ es, e.Tallied := by
  refine ⟨fun l h => ⟨compareBases_strict h, compareTerms_strict h⟩, ?_, fun s es h e he => ?_⟩
  · intro n name i j k b e c d factors summands
    exact ⟨compareBases_tiers n name i j k b e c d factors summands,
      compareTerms_tiers n name i j k b e c d factors summands⟩
  · obtain ⟨R, -, hes⟩ := h.registered
    exact R.tallied (hes e he)

set_option maxRecDepth 1024 in
/-- The sums `x + 1` and `y + 2` stand in the order in which they have been built. -/
theorem entries_ordered_of_sums :
    OrdersStrictly compareBases [.sum 10 ⟨1, 9⟩ [(.var "x", ⟨1, 7⟩)],
        .sum 14 ⟨2, 13⟩ [(.var "y", ⟨1, 11⟩)]] ∧
      Tallied (.product 17 ⟨1, 1⟩ [(.sum 10 ⟨1, 9⟩ [(.var "x", ⟨1, 7⟩)], .num ⟨1, 15⟩),
        (.sum 14 ⟨2, 13⟩ [(.var "y", ⟨1, 11⟩)], .num ⟨1, 16⟩)]) := by
  have hapart : Apart [.sum 10 ⟨1, 9⟩ [(.var "x", ⟨1, 7⟩)],
      .sum 14 ⟨2, 13⟩ [(.var "y", ⟨1, 11⟩)]] :=
    List.pairwise_pair.mpr ⟨by cbv, fun h => nomatch h⟩
  have hsession := Session.step (.start Supply.valid_initial.1) (.parse 200 "(x+1)(y+2)")
  refine ⟨(entries_ordered.1 _ hapart).1, entries_ordered.2.2 _ _ hsession _ ?_⟩
  rw [List.append_nil, Option.mem_toList]
  cbv

end Expr

end ExactAlgebra
