import ExactAlgebra.Proofs.Ages.Operators

/-!
# The limit on nesting

The limit is checked in several places, on the depth of a bracket and on heights that a later
cancellation may reduce.  Wherever it is checked, it refuses or it lets pass, and a higher limit
lets pass what a lower one does.  So two runs with different limits are the same up to where the
lower one refuses.

* `Token.nesting`: how many brackets of a token list are open at once.  `nesting_tokens`: it is the
  nesting of the tree.
* `actUnder_nesting`: what is parsed has no brackets beyond the limit, whether or not a bracket is
  around a single operand.
* `parse_relaxes`: a lower limit refuses, or it does what the higher one does.
* `parse_limit_only_rejects`: the two runs may have different supplies.
-/

namespace ExactAlgebra

open Build Passes

/-! ## Nesting of token lists -/

namespace Token

/-- The greatest number of brackets that are open at once, when `depth` are open to begin with. -/
def deepest (depth : Nat) : List Token → Nat
  | [] => depth
  | .opening :: tokens => deepest (depth + 1) tokens
  | .closing :: tokens => max depth (deepest (depth - 1) tokens)
  | .atom _ :: tokens | .operator _ :: tokens => deepest depth tokens

/-- The greatest number of brackets that are open at once. -/
def nesting (tokens : List Token) : Nat := deepest 0 tokens

theorem le_deepest (tokens : List Token) (depth : Nat) : depth ≤ deepest depth tokens := by
  induction tokens generalizing depth with
  | nil => exact Nat.le_refl depth
  | cons token tokens ih =>
    cases token with
    | opening =>
      rw [deepest]
      have := ih (depth + 1)
      omega
    | closing => rw [deepest]; omega
    | atom a => exact ih depth
    | operator o => exact ih depth

end Token

namespace Grammar

open Token

theorem deepest_minusIf (negated : Bool) (tokens : List Token) (depth : Nat) :
    deepest depth (minusIf negated ++ tokens) = deepest depth tokens := by
  cases negated with
  | true => rfl
  | false => rfl

mutual

theorem Primary.deepest_tokens (p : Primary Atom) (rest : List Token) (depth : Nat) :
    deepest depth (p.tokens ++ rest) = max (depth + p.nesting) (deepest depth rest) := by
  cases p with
  | leaf a =>
    have := le_deepest rest depth
    rw [Primary.tokens, Primary.nesting, List.singleton_append, deepest]
    omega
  | group s =>
    have := le_deepest rest depth
    rw [Primary.tokens, Primary.nesting, List.cons_append, deepest, List.append_assoc,
      Tree.deepest_tokens s, List.singleton_append, deepest, Nat.add_sub_cancel]
    omega

theorem Factor.deepest_tokens (f : Factor (Primary Atom)) (rest : List Token) (depth : Nat) :
    deepest depth (f.tokens ++ rest) = max (depth + f.nesting) (deepest depth rest) := by
  cases f with
  | operand p => rw [Factor.tokens, Factor.nesting, Primary.deepest_tokens p]
  | power p negated f =>
    rw [Factor.tokens, Factor.nesting, List.append_assoc, Primary.deepest_tokens p,
      List.cons_append, deepest, List.append_assoc, deepest_minusIf, Factor.deepest_tokens f]
    omega

theorem Term.deepest_tokens (t : Term (Factor (Primary Atom))) (rest : List Token) (depth : Nat) :
    deepest depth (t.tokens ++ rest) = max (depth + t.nesting) (deepest depth rest) := by
  cases t with
  | factor f => rw [Term.tokens, Term.nesting, Factor.deepest_tokens f]
  | multiply t negated f =>
    rw [Term.tokens, Term.nesting, List.append_assoc, Term.deepest_tokens t, List.cons_append,
      deepest, List.append_assoc, deepest_minusIf, Factor.deepest_tokens f]
    omega
  | divide t negated f =>
    rw [Term.tokens, Term.nesting, List.append_assoc, Term.deepest_tokens t, List.cons_append,
      deepest, List.append_assoc, deepest_minusIf, Factor.deepest_tokens f]
    omega

theorem Tree.deepest_tokens (s : Tree Atom) (rest : List Token) (depth : Nat) :
    deepest depth (Tree.tokens s ++ rest) = max (depth + Tree.nesting s) (deepest depth rest) := by
  cases s with
  | term negated t =>
    rw [Tree.tokens, Tree.nesting, List.append_assoc, deepest_minusIf, Term.deepest_tokens t]
  | add s sign t =>
    rw [Tree.tokens, Tree.nesting, List.append_assoc, Tree.deepest_tokens s, List.cons_append,
      deepest, Term.deepest_tokens t]
    omega

end

/-- The brackets of a token list are nested as those of its tree. -/
theorem nesting_tokens (s : Tree Atom) : Token.nesting (Tree.tokens s) = Tree.nesting s := by
  have h := Tree.deepest_tokens s [] 0
  rw [List.append_nil, deepest] at h
  rw [Token.nesting, h]
  omega

/-! ## What passes the checks is not nested too deeply -/

mutual

theorem Primary.build_nesting (p : Primary Atom) :
    Ensures p.build (fun p' => p'.nesting = p.nesting) fun _ => True := by
  cases p with
  | leaf a =>
    rw [Primary.build]
    exact (ensures_true _).bind fun _ _ => .pure (by rw [Primary.nesting, Primary.nesting])
  | group s =>
    rw [Primary.build]
    exact (Tree.build_nesting s).bind fun s' hs =>
      .pure (by rw [Primary.nesting, Primary.nesting, hs])

theorem Factor.build_nesting (f : Factor (Primary Atom)) :
    Ensures f.build (fun f' => f'.nesting = f.nesting) fun _ => True := by
  cases f with
  | operand p =>
    rw [Factor.build]
    exact (Primary.build_nesting p).bind fun p' hp =>
      .pure (by rw [Factor.nesting, Factor.nesting, hp])
  | power p negated f =>
    rw [Factor.build]
    exact (Primary.build_nesting p).bind fun p' hp => (Factor.build_nesting f).bind fun f' hf =>
      .pure (by rw [Factor.nesting, Factor.nesting, hp, hf])

theorem Term.build_nesting (t : Term (Factor (Primary Atom))) :
    Ensures t.build (fun t' => t'.nesting = t.nesting) fun _ => True := by
  cases t with
  | factor f =>
    rw [Term.build]
    exact (Factor.build_nesting f).bind fun f' hf => .pure (by rw [Term.nesting, Term.nesting, hf])
  | multiply t negated f =>
    rw [Term.build]
    exact (Term.build_nesting t).bind fun t' ht => (Factor.build_nesting f).bind fun f' hf =>
      .pure (by rw [Term.nesting, Term.nesting, ht, hf])
  | divide t negated f =>
    rw [Term.build]
    exact (Term.build_nesting t).bind fun t' ht => (Factor.build_nesting f).bind fun f' hf =>
      .pure (by rw [Term.nesting, Term.nesting, ht, hf])

theorem Tree.build_nesting (s : Tree Atom) :
    Ensures (Tree.build s) (fun s' => Tree.nesting s' = Tree.nesting s) fun _ => True := by
  cases s with
  | term negated t =>
    rw [Tree.build]
    exact (Term.build_nesting t).bind fun t' ht => .pure (by rw [Tree.nesting, Tree.nesting, ht])
  | add s sign t =>
    rw [Tree.build]
    exact (Tree.build_nesting s).bind fun s' hs => (Term.build_nesting t).bind fun t' ht =>
      .pure (by rw [Tree.nesting, Tree.nesting, hs, ht])

end

section Passing

variable {source : String} {limit : Int}

mutual

/-- Every bracket is checked at its depth. -/
theorem Primary.resolve_nesting (p : Primary Expr) {depth : Nat} (h : (depth : Int) ≤ limit) :
    Ensures (p.resolve (checkLevels source limit) depth)
      (fun _ => ((depth + p.nesting : Nat) : Int) ≤ limit) fun _ => True := by
  cases p with
  | leaf e => rw [Primary.resolve]; exact .pure (by rw [Primary.nesting]; omega)
  | group s =>
    rw [Primary.resolve]
    refine (checkLevels_le source limit (depth + 1)).bind fun _ hdepth => ?_
    refine (Tree.groups_nesting s hdepth).bind fun _ hs => (ensures_true _).imp fun _ _ => ?_
    rw [Primary.nesting]
    omega

theorem Factor.groups_nesting (f : Factor (Primary Expr)) {depth : Nat}
    (h : (depth : Int) ≤ limit) :
    Ensures (f.groups (checkLevels source limit) depth)
      (fun _ => ((depth + f.nesting : Nat) : Int) ≤ limit) fun _ => True := by
  cases f with
  | operand p =>
    rw [Factor.groups]
    exact (Primary.resolve_nesting p h).bind fun _ hp => .pure (by rw [Factor.nesting]; omega)
  | power p negated f =>
    rw [Factor.groups]
    exact (Primary.resolve_nesting p h).bind fun _ hp =>
      (Factor.groups_nesting f h).bind fun _ hf =>
      .pure (by rw [Factor.nesting]; omega)

theorem Term.groups_nesting (t : Term (Factor (Primary Expr))) {depth : Nat}
    (h : (depth : Int) ≤ limit) :
    Ensures (t.groups (checkLevels source limit) depth)
      (fun _ => ((depth + t.nesting : Nat) : Int) ≤ limit) fun _ => True := by
  cases t with
  | factor f =>
    rw [Term.groups]
    exact (Factor.groups_nesting f h).bind fun _ hf => .pure (by rw [Term.nesting]; omega)
  | multiply t negated f =>
    rw [Term.groups]
    exact (Term.groups_nesting t h).bind fun _ ht => (Factor.groups_nesting f h).bind fun _ hf =>
      .pure (by rw [Term.nesting]; omega)
  | divide t negated f =>
    rw [Term.groups]
    exact (Term.groups_nesting t h).bind fun _ ht => (Factor.groups_nesting f h).bind fun _ hf =>
      .pure (by rw [Term.nesting]; omega)

theorem Tree.groups_nesting (s : Tree Expr) {depth : Nat} (h : (depth : Int) ≤ limit) :
    Ensures (Tree.groups (checkLevels source limit) depth s)
      (fun _ => ((depth + Tree.nesting s : Nat) : Int) ≤ limit) fun _ => True := by
  cases s with
  | term negated t =>
    rw [Tree.groups]
    exact (Term.groups_nesting t h).bind fun _ ht => .pure (by rw [Tree.nesting]; omega)
  | add s sign t =>
    rw [Tree.groups]
    exact (Tree.groups_nesting s h).bind fun _ hs => (Term.groups_nesting t h).bind fun _ ht =>
      .pure (by rw [Tree.nesting]; omega)

end

/-- **The brackets of a tree that passes the checks are nested no deeper than the limit.** -/
theorem actUnder_nesting (s : Tree Atom) :
    Ensures (Tree.actUnder (checkLevels source limit) s) (fun _ => (Tree.nesting s : Int) ≤ limit)
      fun _ => True := by
  refine (Tree.build_nesting s).bind fun s' hs => ?_
  refine (checkLevels_le source limit 0).bind fun _ hzero => ?_
  refine (Tree.groups_nesting s' hzero).bind fun _ hs' => (ensures_true _).imp fun _ _ => ?_
  rw [← hs]
  omega

end Passing

/-! ## Two limits -/

/-- Of two limits the lower one refuses, or it lets pass what the higher one does. -/
theorem checkLevels_relaxes (source : String) (high : Int) (levels : Nat) :
    Limits (fun low => .text (.nesting source (min low high)))
      (fun low => checkLevels source (min low high) levels) (checkLevels source high levels) := by
  intro σ
  refine ⟨fun low => ?_, high, fun low hlow => by dsimp only; rw [min_eq_right hlow]⟩
  by_cases h : min low high < levels
  · left
    dsimp only [checkLevels]
    rw [if_pos h]
    rfl
  · right
    dsimp only [checkLevels]
    rw [if_neg h, if_neg (by omega)]

end Grammar

namespace Expr

/-- **Of two limits the lower one refuses a text, or it does with it what the higher one does.** -/
theorem parse_relaxes {low high : Int} (h : low ≤ high) (source : String) (s : Supply) :
    (parse low source s).1 = .error (.text (.nesting source low)) ∨
      parse low source s = parse high source s := by
  cases htokens : tokenize source with
  | error e =>
    right
    rw [parse, parse, htokens]
  | ok tokens =>
    obtain ⟨t, rfl⟩ := Grammar.exists_tree_of_tokenize htokens
    rw [Grammar.parse_eq_actUnder htokens, Grammar.parse_eq_actUnder htokens]
    have hany := (Grammar.actUnder_limits (Grammar.checkLevels_relaxes source high) t s).1 low
    dsimp only at hany
    rwa [min_eq_left h] at hany

/-- The brackets of a text that is parsed, those included that are closed at its end, are nested no
deeper than the limit. -/
theorem parse_nesting {limit : Int} {source : String} {s : Supply} {e : Expr}
    (h : (parse limit source s).1 = .ok e) :
    ∃ tokens, tokenize source = .ok tokens ∧ (Token.nesting tokens : Int) ≤ limit := by
  cases htokens : tokenize source with
  | error fault =>
    rw [parse, htokens] at h
    cases h
  | ok tokens =>
    obtain ⟨t, rfl⟩ := Grammar.exists_tree_of_tokenize htokens
    rw [Grammar.parse_eq_actUnder htokens] at h
    refine ⟨_, rfl, ?_⟩
    rw [Grammar.nesting_tokens]
    exact (Grammar.actUnder_nesting t).of_fst h

/-- **A limit on nesting only rejects.**  Let a text be parsed under two limits, whatever has been
built before each time.  Under the lower one it is refused with this limit, or the outcome is the
same.  If it is parsed under the lower limit then its brackets and the expression are within the
limit, and under the higher one it is parsed to an equal expression; and if it is parsed only under
the higher limit then the lower one has refused it. -/
theorem parse_limit_only_rejects {low high : Int} (h : low ≤ high) (source : String) {s s' : Supply}
    (hs : s.Valid) (hs' : s'.Valid) :
    ((parse low source s).1 = .error (.text (.nesting source low)) ∨
      SameOutcome (parse low source s).1 (parse high source s').1) ∧
    (∀ e, (parse low source s).1 = .ok e →
      (∃ tokens, tokenize source = .ok tokens ∧ (Token.nesting tokens : Int) ≤ low) ∧
      (e.height : Int) ≤ low ∧
      ∃ e', (parse high source s').1 = .ok e' ∧ (e == e') = true) ∧
    ∀ e', (parse high source s').1 = .ok e' → (∀ e, (parse low source s).1 ≠ .ok e) →
      (parse low source s).1 = .error (.text (.nesting source low)) := by
  have houtcome : (parse low source s).1 = .error (.text (.nesting source low)) ∨
      SameOutcome (parse low source s).1 (parse high source s').1 := by
    refine (parse_relaxes h source s).imp_right fun he => ?_
    rw [he]
    exact .of_couples (parse_couples high source) (Pairing.below_constants true hs hs')
  refine ⟨houtcome, fun e he => ⟨parse_nesting he, ?_, ?_⟩, fun e' he' hnone => ?_⟩
  · exact (Grammar.parse_height low source).of_fst he
  · rw [he] at houtcome
    rcases houtcome with hrefused | hsame
    · cases hrefused
    · cases hhigh : (parse high source s').1 with
      | error fault =>
        rw [hhigh] at hsame
        exact hsame.elim
      | ok e' =>
        rw [hhigh] at hsame
        exact ⟨e', rfl, hsame⟩
  · refine houtcome.resolve_right fun hsame => ?_
    rw [he'] at hsame
    cases hlow : (parse low source s).1 with
    | error fault =>
      rw [hlow] at hsame
      exact hsame
    | ok e => exact hnone e hlow

set_option maxRecDepth 1024 in
/-- The second bracket of `2(x+(y` is closed at the end of the text.  One level is not enough for
it, and with two levels it is parsed as with two hundred, whatever has been built before. -/
theorem parse_limit_open_bracket :
    (parse 1 "2(x+(y" .initial).1 = .error (.text (.nesting "2(x+(y" 1)) ∧
    ∃ e e', (parse 2 "2(x+(y" .initial).1 = .ok e ∧ e.height ≤ 2 ∧
      (parse 200 "2(x+(y" ⟨0, fun k => 100 + 3 * k, true⟩).1 = .ok e' ∧ (e == e') = true := by
  have hfault : ∃ fault, (parse 1 "2(x+(y" .initial).1 = .error fault := ⟨_, by cbv⟩
  have hparse : ∃ e, (parse 2 "2(x+(y" .initial).1 = .ok e := ⟨_, by cbv⟩
  have hvalid : Supply.Valid ⟨0, fun k => 100 + 3 * k, true⟩ := by
    refine ⟨fun a b h => ?_, by decide⟩
    show 100 + 3 * a < 100 + 3 * b
    omega
  have hrefused : ∀ e, (parse 1 "2(x+(y" .initial).1 ≠ .ok e := by
    intro e he
    obtain ⟨fault, hfault⟩ := hfault
    rw [hfault] at he
    cases he
  obtain ⟨e, he⟩ := hparse
  have hone : (1 : Int) ≤ 2 := by decide
  have htwo : (2 : Int) ≤ 200 := by decide
  obtain ⟨-, -, hlow⟩ :=
    parse_limit_only_rejects hone "2(x+(y" Supply.valid_initial Supply.valid_initial
  obtain ⟨-, hhigh, -⟩ := parse_limit_only_rejects htwo "2(x+(y" Supply.valid_initial hvalid
  obtain ⟨-, hheight, e', he', hbeq⟩ := hhigh e he
  exact ⟨hlow e he hrefused, e, e', he, by omega, he', hbeq⟩

end Expr

end ExactAlgebra
