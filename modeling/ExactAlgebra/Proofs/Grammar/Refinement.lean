import ExactAlgebra.Proofs.Grammar.Resolution
import ExactAlgebra.Proofs.Written.Normal
import Mathlib

/-!
# Parsing is recursive descent

Every text with tokens has the tree that recursive descent finds in them, and parsing the text does
what the actions on the tree do.  Only the order of the actions is not the one in which recursive
descent meets them, which shows in the fault that is reported if there are several.

* `parse_eq_actUnder`: parsing as actions on a tree, with the limit on nesting.
* `parse_eq_actUnder_get`: the tree as it is found in the text.
* `parse_limits`, `parse_eq_act`: without a limit that is hit, the actions alone.
-/

namespace ExactAlgebra.Grammar

open Passes Build

/-- The tokens of a text are those of a tree. -/
theorem exists_tree_of_tokenize {source : String} {tokens : List Token}
    (h : tokenize source = .ok tokens) : ∃ s : Tree Atom, Tree.tokens s = tokens := by
  obtain ⟨raw, -, hnormal⟩ := tokenize_eq_ok h
  obtain ⟨s, -, hs, -⟩ := exists_tree_of_normalize hnormal
  exact ⟨s, hs⟩

/-- A text whose tokens are those of a tree is parsed as the tree. -/
theorem parse_eq_actUnder {source : String} {s : Tree Atom}
    (h : tokenize source = .ok (Tree.tokens s)) (limit : Int) :
    Expr.parse limit source = Tree.actUnder (checkLevels source limit) s := by
  rw [Expr.parse, h]
  simp [parseTokens_tokens]

def tree? (source : String) : Option (Tree Atom) := (tokenize source).toOption.bind Tree.read?

/-- A text is parsed as the tree that recursive descent finds in it. -/
theorem parse_eq_actUnder_get (source : String) (h : (tree? source).isSome = true) (limit : Int) :
    Expr.parse limit source = Tree.actUnder (checkLevels source limit) ((tree? source).get h) := by
  cases htokens : tokenize source with
  | error f =>
    rw [tree?, htokens] at h
    cases h
  | ok tokens =>
    obtain ⟨s, rfl⟩ := exists_tree_of_tokenize htokens
    have htree : tree? source = some s := by rw [tree?, htokens]; exact read?_tokens s
    rw [parse_eq_actUnder htokens]
    simp only [htree, Option.get_some]

/-- The check of a limit refuses what is above it. -/
theorem checkLevels_limits (source : String) (levels : Nat) :
    Limits (fun limit => .text (.nesting source limit))
      (fun limit => checkLevels source limit levels) (return ()) := by
  refine fun σ => ⟨fun limit => ?_, levels, fun limit hlimit => ?_⟩
  · by_cases h : limit < levels
    · left
      dsimp only [checkLevels]
      rw [if_pos h]
      rfl
    · right
      dsimp only [checkLevels]
      rw [if_neg h]
  · dsimp only [checkLevels]
    rw [if_neg (Int.not_lt.mpr hlimit)]

/-- Unless the limit refuses it, a text whose tokens are those of a tree is worked out as the tree;
and some limits do not refuse it. -/
theorem parse_limits {source : String} {s : Tree Atom}
    (h : tokenize source = .ok (Tree.tokens s)) :
    Limits (fun limit => .text (.nesting source limit)) (fun limit => Expr.parse limit source)
      (Tree.act s) := by
  simp only [parse_eq_actUnder h]
  exact actUnder_limits (checkLevels_limits source) s

/-- **Parsing is recursive descent.**  The tokens of a text have a tree, which recursive descent
finds.  Whatever the limit, no pass over them makes a misstep: an item stands at every index that is
looked up and is left at every pop, and every operand of a construction is an expression.  Unless
the limit on nesting is hit, parsing the text is acting on the tree: the same expression or the same
fault. -/
theorem parse_eq_act {source : String} {tokens : List Token} (h : tokenize source = .ok tokens) :
    ∃ s : Tree Atom, Tree.read? tokens = some s ∧
      (∀ (limit : Int) (σ : Supply) (misstep : Misstep),
        ((parseTokens source limit tokens).run σ).1 ≠ .ok (.error misstep)) ∧
      ∀ (limit : Int) (σ : Supply),
        (Expr.parse limit source σ).1 ≠ .error (.text (.nesting source limit)) →
        Expr.parse limit source σ = Tree.act s σ := by
  obtain ⟨s, rfl⟩ := exists_tree_of_tokenize h
  refine ⟨s, read?_tokens s, ?_, ?_⟩
  · intro limit σ
    exact parseTokens_no_misstep source limit s σ
  · intro limit σ hlimit
    exact ((parse_limits h σ).1 limit).resolve_left hlimit

/-- A tower of powers with signs, times a sum in a bracket that is left open. -/
theorem parse_eq_act_tower : ∃ s : Tree Atom,
    (tokenize "-2^-3^2(x/+-(y-4").toOption.bind Tree.read? = some s ∧
      (∀ tokens ∈ (tokenize "-2^-3^2(x/+-(y-4").toOption, ∀ misstep,
        ((parseTokens "-2^-3^2(x/+-(y-4" 3 tokens).run .initial).1 ≠ .ok (.error misstep)) ∧
      Expr.parse 3 "-2^-3^2(x/+-(y-4" .initial = Tree.act s .initial := by
  obtain ⟨tokens, h⟩ : ∃ tokens, tokenize "-2^-3^2(x/+-(y-4" = .ok tokens := ⟨_, by cbv⟩
  obtain ⟨s, hs, hmisstep, hact⟩ := parse_eq_act h
  have hparse : ∃ e, (Expr.parse 3 "-2^-3^2(x/+-(y-4" .initial).1 = .ok e := ⟨_, by cbv⟩
  obtain ⟨e, he⟩ := hparse
  refine ⟨s, by rw [h]; exact hs, ?_, hact 3 .initial fun hlimit => ?_⟩
  · intro tokens' htokens
    rw [h] at htokens
    obtain rfl := Option.some.inj htokens
    exact hmisstep 3 .initial
  · rw [he] at hlimit
    cases hlimit

/-- The tree of `1/0+0^0`. -/
def quotientAndPower : Tree Atom :=
  .add (.term false (.divide (.factor (.operand (.leaf (.number ⟨['1'], none⟩)))) false
      (.operand (.leaf (.number ⟨['0'], none⟩))))) .plus
    (.factor (.power (.leaf (.number ⟨['0'], none⟩)) false
      (.operand (.leaf (.number ⟨['0'], none⟩)))))

/-- Recursive descent meets the division in `1/0+0^0` first, and parsing the power. -/
theorem descend_fault : ¬ ∀ (source : String) (tokens : List Token) (s : Tree Atom),
    tokenize source = .ok tokens → Tree.read? tokens = some s →
    ∀ p q, (Expr.parse Expr.defaultLimit source .initial).1 = .error (.undefinedPower p q) →
    ∃ p q, (Tree.descend s .initial).1 = .error (.undefinedPower p q) := by
  intro h
  have htokens : tokenize "1/0+0^0" = .ok (Tree.tokens quotientAndPower) := by cbv
  have hparse : (Expr.parse Expr.defaultLimit "1/0+0^0" .initial).1 =
      .error (.undefinedPower 0 0) := by cbv
  have hdescend : (Tree.descend quotientAndPower .initial).1 = .error (.divisionByZero 1) := by cbv
  obtain ⟨p, q, hpower⟩ := h _ _ _ htokens (read?_tokens _) 0 0 hparse
  rw [hdescend] at hpower
  exact Fault.noConfusion (Except.error.inj hpower)

end ExactAlgebra.Grammar
