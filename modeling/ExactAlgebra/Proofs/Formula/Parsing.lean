import ExactAlgebra.Proofs.Formula.Reading
import ExactAlgebra.Proofs.Grammar.Refinement
import Mathlib

/-!
# Texts of numbers are worked out

A text without letters is read as a formula, and parsing it works the formula out: it returns the
value of the formula, and raises a fault of arithmetic if there is none.  Only where a power would
be irrational does parsing do something else.

* `legible_raw`: the raw tokens of a text without letters, with their open brackets closed.
* `read_of_tokenize`: the formula of a text, and the tree that denotes it.
* `parse_formula`: parsing as evaluation of the formula.
-/

namespace ExactAlgebra.Grammar

open Build

/-! ## From the text to its formula -/

/-- Closing brackets at the end of a token list do no harm. -/
theorem Legible.append_closing {w : List Token} (h : Legible w) (k : ℕ) :
    Legible (w ++ List.replicate k .closing) where
  number a ha := by
    rcases List.mem_append.mp ha with ha | ha
    · exact h.number a ha
    · exact nomatch List.eq_of_mem_replicate ha
  proper t ht := by
    rcases List.mem_append.mp ht with ht | ht
    · exact h.proper t ht
    · obtain rfl := List.eq_of_mem_replicate ht
      exact trivial
  apart := by
    refine List.isChain_append.mpr ⟨h.apart, ?_, fun t _ t' ht' => ?_⟩
    · exact List.isChain_replicate_of_rel k fun n n' => nofun
    · obtain rfl := List.eq_of_mem_replicate (List.mem_of_mem_head? ht')
      exact fun n n' _ => nofun

/-- The raw tokens of a text without letters. -/
theorem legible_raw {source : String} {chars : List Char} {raw : List Token} {σ : Normalizer}
    (hscan : Token.scan chars = .ok raw)
    (hfold : raw.foldlM (Normalizer.step source) .empty = .ok σ)
    (hletters : ∀ c ∈ chars, Text.isLetter c = false) : Legible raw where
  number a ha := by
    obtain ⟨htext, hproper⟩ := Token.scan_eq_ok hscan
    cases a with
    | number n => exact ⟨n, rfl⟩
    | _ c =>
      have hletter : Text.isLetter c = true := hproper _ ha
      have hmem : c ∈ chars := by
        rw [← htext]
        exact List.mem_flatMap.mpr ⟨_, ha, List.mem_singleton_self c⟩
      rw [hletters c hmem] at hletter
      exact nomatch hletter
  proper := (Token.scan_eq_ok hscan).2
  apart := (Normalizer.isChain_apart hfold).1

/-- A bracket in the text is a token of its own. -/
theorem Legible.count_text {w : List Token} (h : Legible w) :
    (text w).count '(' = w.count .opening ∧ (text w).count ')' = w.count .closing := by
  induction w with
  | nil => exact ⟨rfl, rfl⟩
  | cons t w ih =>
    obtain ⟨ho, hc⟩ := ih h.tail
    rw [text_cons, List.count_append, List.count_append, ho, hc]
    cases t with
    | atom a =>
      obtain ⟨n, rfl⟩ := h.number a List.mem_cons_self
      have hn : n.Proper := h.proper _ List.mem_cons_self
      have ho : '(' ∉ n.chars := fun hmem => absurd (hn.isDigit_or hmem) (by decide)
      have hc : ')' ∉ n.chars := fun hmem => absurd (hn.isDigit_or hmem) (by decide)
      rw [Token.chars, List.count_eq_zero_of_not_mem ho, List.count_eq_zero_of_not_mem hc]
      simp
    | opening => constructor <;> simp [Token.chars, Nat.add_comm]
    | closing => constructor <;> simp [Token.chars, Nat.add_comm]
    | operator o => cases o <;> constructor <;> simp [Token.chars, Operator.char]

theorem text_closing (k : ℕ) :
    text (List.replicate k .closing) = List.replicate k ')' := by
  induction k with
  | zero => rfl
  | succ k ih => rw [List.replicate_succ, text_cons, ih, List.replicate_succ]; rfl

/-- **A text without letters is read as a formula**, which the tree of its tokens denotes. -/
theorem read_of_tokenize {source : String} {tokens : List Token}
    (h : tokenize source = .ok tokens)
    (hletters : ∀ c ∈ source.toList, Text.isLetter c = false) : ∃ (s : Tree Atom) (φ : Formula),
      Tree.tokens s = tokens ∧ Formula.read source.toList = some φ ∧
      s.Denotes (Factor.Denotes (Primary.Denotes Atom.Denotes)) φ := by
  obtain ⟨raw, hscan, hnormal⟩ := tokenize_eq_ok h
  obtain ⟨s, σ, hs, hfold, hw⟩ := exists_tree_of_normalize hnormal
  have htext := (Token.scan_eq_ok hscan).1
  have hraw := legible_raw hscan hfold fun c hc => hletters c (List.mem_of_mem_filter hc)
  have hlegible : Legible (raw ++ List.replicate σ.depth .closing ++ []) := by
    rw [List.append_nil]
    exact hraw.append_closing _
  obtain ⟨φ, hφ, hread⟩ := Tree.readSum_text s hw hlegible (.inl rfl)
  refine ⟨s, φ, hs, ?_, hφ⟩
  have hclosed : Formula.closed (source.toList.filter (!Text.isBlank ·)) =
      text (raw ++ List.replicate σ.depth .closing ++ []) := by
    obtain ⟨ho, hc⟩ := hraw.count_text
    have hdepth : σ.depth = raw.count .opening - raw.count .closing := by
      have hadd := Normalizer.depth_add hfold
      rw [show Normalizer.empty.depth = 0 from rfl] at hadd
      omega
    change Formula.closed (Text.dropBlanks source.toList) = _
    rw [Formula.closed, ← htext, show raw.flatMap Token.chars = text raw from rfl, ho, hc,
      List.append_nil, text_append, text_closing, hdepth]
  rw [Formula.read, hclosed, hread, extendSum_of_endsSum φ (.inl rfl)]
  rfl

/-! ## Parsing -/

theorem checkLevels_of_le {source : String} {limit : Int} {levels n : Nat}
    (hl : (levels : Int) ≤ limit) (hn : n ≤ levels) :
    Passes.checkLevels source limit n = return () := by
  rw [Passes.checkLevels, if_neg (by omega)]

/-- **Texts of numbers are worked out.**  A text without letters is read as a formula, and under any
limit that its brackets observe, if all its powers are rational, parsing returns the value of the
formula, or raises a fault of arithmetic if there is no value. -/
theorem parse_formula {source : String} {tokens : List Token} (h : tokenize source = .ok tokens)
    (hletters : ∀ c ∈ source.toList, Text.isLetter c = false) :
    ∃ φ, Formula.read source.toList = some φ ∧ ∀ limit : Int, (φ.nesting : Int) ≤ limit →
      φ.PowersRational → ∀ σ : Supply,
        (∀ q, φ.value = some q →
          ∃ n, (Expr.parse limit source σ).1 = .ok (.num n) ∧ n.value = q) ∧
        (φ.value = none →
          ∃ e, (Expr.parse limit source σ).1 = .error e ∧ e.IsArithmetic) := by
  obtain ⟨s, φ, rfl, hread, hφ⟩ := read_of_tokenize h hletters
  refine ⟨φ, hread, fun limit hlimit hpowers σ => ?_⟩
  have hparse : Ensures (Expr.parse limit source) (·.Equals φ) (Undefined φ) := by
    rw [parse_eq_actUnder h limit]
    exact Tree.actUnder_equals (fun n hn => checkLevels_of_le hlimit hn) hφ hpowers (le_refl _)
  have hσ := hparse σ
  split at hσ
  next e he =>
    obtain ⟨n, rfl, hn⟩ := hσ
    rw [he, hn]
    exact ⟨fun q hq => ⟨n, rfl, Option.some.inj hq⟩, nofun⟩
  next e he =>
    obtain ⟨hn, harith⟩ := hσ
    rw [he, hn]
    exact ⟨nofun, fun _ => ⟨e, rfl, harith⟩⟩

/-- The formula of `-2^-1(4/+-(3-.5`. -/
def openBrackets : Formula :=
  .negative (.product (.power (.number 2) (.negative (.number 1)))
    (.brackets (.quotient (.number 4) (.negative
      (.brackets (.difference (.number 3) (.number (1 / 2))))))))

/-- A power with a signed exponent times a bracket, two brackets left open, and a run of signs. -/
theorem parse_open_brackets : ∃ n,
    (Expr.parse 2 "-2^-1(4/+-(3-.5" .initial).1 = .ok (.num n) ∧ n.value = 4 / 5 := by
  have htokens : ∃ tokens, tokenize "-2^-1(4/+-(3-.5" = .ok tokens := ⟨_, by cbv⟩
  have hletters : "-2^-1(4/+-(3-.5".toList.all (!Text.isLetter ·) = true := by decide +kernel
  have hformula : Formula.read "-2^-1(4/+-(3-.5".toList = some openBrackets := by cbv
  have hvalue : openBrackets.value = some (4 / 5) := by cbv
  have hpowers : openBrackets.PowersRational := by
    refine ⟨⟨trivial, trivial, fun x p _ hp => ?_⟩, trivial, trivial, trivial⟩
    obtain rfl := Option.some.inj hp
    exact .inr (.inr rfl)
  obtain ⟨tokens, htokens⟩ := htokens
  obtain ⟨φ, hread, hparse⟩ := parse_formula htokens (by simpa using hletters)
  obtain rfl : openBrackets = φ := Option.some.inj (hformula.symm.trans hread)
  exact (hparse 2 (by decide) hpowers .initial).1 _ hvalue

end ExactAlgebra.Grammar
