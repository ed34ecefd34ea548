import ExactAlgebra.Proofs.Canonical.Obtainable
import ExactAlgebra.Proofs.Printed.Spelling

/-!
# Printed forms are read as their trees

The pieces that the printer puts together spell a writing of the printed tree: brackets stand where
the grammar needs them, and digits that would run together are kept apart.

* `Prints`: a piece of a printed form spells a writing.
* `prints_number`, `prints_powerFactor`, `prints_entries`, `prints_terms`: numbers, powers, and the
  entries of products and sums.
* `readAs_tree`: the printed form of an expression is read as its tree.
* `format_means`: printed forms mean the expression.
-/

namespace ExactAlgebra

open Markup

/-! ## Joining -/

namespace Markup

variable (m : Markup)

theorem join_eq (l r : List Char) : m.join l r =
    l ++ ((if endsWithDigit l && beginsWithDigit r then m.separator else []) ++ r) := by
  rw [join]
  split <;> simp

theorem join_nil (l : List Char) : m.join l [] = l := by
  rw [join_eq, beginsWithDigit, List.head?_nil, Option.any_none, Bool.and_false]
  simp

theorem nil_join (r : List Char) : m.join [] r = r := by
  rw [join_eq, endsWithDigit, List.getLast?_nil, Option.any_none, Bool.false_and]
  rfl

/-- Whether a separator is needed does not depend on what stands before the left part. -/
theorem append_join {l : List Char} (h : endsWithDigit l = false) (a r : List Char) :
    m.join (l ++ a) r = l ++ m.join a r := by
  cases a with
  | nil => rw [List.append_nil, nil_join, join_eq, h]; rfl
  | cons c a => rw [join_eq, join_eq, endsWithDigit_append (List.cons_ne_nil c a),
    List.append_assoc]

theorem join_assoc {a : List Char} (h : a ≠ []) (l r : List Char) :
    m.join (m.join l a) r = m.join l (m.join a r) := by
  rw [m.join_eq l (m.join a r), m.join_eq a r, beginsWithDigit_append h, m.join_eq (m.join l a) r,
    m.join_eq l a, ← List.append_assoc l, endsWithDigit_append h]
  simp only [List.append_assoc]

theorem foldl_append_join {l : List Char} (h : endsWithDigit l = false) (forms : List (List Char))
    (a : List Char) : forms.foldl m.join (l ++ a) = l ++ forms.foldl m.join a := by
  induction forms generalizing a with
  | nil => rfl
  | cons form forms ih => rw [List.foldl_cons, append_join m h, ih, List.foldl_cons]

theorem foldl_join {forms : List (List Char)} (h : ∀ form ∈ forms, form ≠ []) (l : List Char) :
    forms.foldl m.join l = m.join l (forms.foldl m.join []) := by
  induction forms generalizing l with
  | nil => rw [List.foldl_nil, List.foldl_nil, join_nil]
  | cons form forms ih =>
    rw [List.forall_mem_cons] at h
    rw [List.foldl_cons, ih h.2, List.foldl_cons, nil_join, ih h.2 form, join_assoc m h.1]

end Markup

/-! ## Printed writings -/

open Grammar

/-- The piece of a printed form spells a writing. -/
def Prints (m : Markup) (form : List Char) (Writes : List Token → Prop) : Prop :=
  ∃ w, Writes w ∧ Spells m form w

def minusForm (negated : Bool) : List Char := if negated then ['-'] else []

/-- The sign between two terms as it is printed. -/
def signForm (negated : Bool) : List Char := if negated then ['-'] else ['+']

theorem endsWithDigit_minusForm (negated : Bool) : endsWithDigit (minusForm negated) = false := by
  cases negated <;> decide

theorem endsWithDigit_signForm (negated : Bool) : endsWithDigit (signForm negated) = false := by
  cases negated <;> decide

namespace Prints

variable {m : Markup} {form form' : List Char}

theorem ne_nil {W : List Token → Prop} (h : Prints m form W) : form ≠ [] := by
  obtain ⟨w, -, hs⟩ := h
  exact hs.form_ne_nil

theorem group {s : Grammar.Tree Atom} (h : Prints m form (Tree.Writes s)) :
    Prints m (m.group form) (Primary.group s).Writes := by
  obtain ⟨w, hw, hs⟩ := h
  refine ⟨_, ?_, hs.group⟩
  rw [Primary.Writes]
  exact ⟨w, hw, rfl⟩

theorem operand {p : Primary Atom} (h : Prints m form p.Writes) :
    Prints m form (Factor.operand p).Writes := by
  obtain ⟨w, hw, hs⟩ := h
  exact ⟨w, by rwa [Factor.Writes], hs⟩

theorem factor {f : Factor (Primary Atom)} (h : Prints m form f.Writes) :
    Prints m form (Term.factor f).Writes := by
  obtain ⟨w, hw, hs⟩ := h
  exact ⟨w, by rwa [Term.Writes], hs⟩

theorem term {t : Term (Factor (Primary Atom))} (h : Prints m form t.Writes) (negated : Bool) :
    Prints m (minusForm negated ++ form) (Tree.Writes (.term negated t)) := by
  obtain ⟨w, hw, hs⟩ := h
  cases negated with
  | false =>
    refine ⟨w, ?_, hs⟩
    rw [Tree.Writes]
    exact ⟨[], w, hw, rfl, rfl⟩
  | true =>
    have hminus : endsWithDigit ['-'] = false := endsWithDigit_minusForm true
    refine ⟨.operator .minus :: w, ?_, Spells.minus.append hs (by rw [hminus, Bool.false_and])⟩
    rw [Tree.Writes]
    exact ⟨[.minus], w, hw, rfl, rfl⟩

theorem add {s : Grammar.Tree Atom} {t : Term (Factor (Primary Atom))}
    (h : Prints m form (Tree.Writes s)) (h' : Prints m form' t.Writes) (negated : Bool) :
    Prints m (form ++ (signForm negated ++ form')) (Tree.Writes (.add s (signIf negated) t)) := by
  obtain ⟨w, hw, hs⟩ := h
  obtain ⟨w', hw', hs'⟩ := h'
  have hsign : Spells m (signForm negated) [.operator (signOperator (signIf negated))] := by
    cases negated with
    | false => exact Spells.plus
    | true => exact Spells.minus
  have hright := hsign.append hs' (by rw [endsWithDigit_signForm, Bool.false_and])
  have hbegins : beginsWithDigit (signForm negated ++ form') = false := by
    rw [beginsWithDigit_append hsign.form_ne_nil]
    cases negated <;> decide
  refine ⟨_, ?_, hs.append hright (by rw [hbegins, Bool.and_false])⟩
  rw [Tree.Writes]
  refine ⟨w, [signIf negated], w', hw, hw', List.cons_ne_nil _ _, ?_, rfl⟩
  cases negated <;> rfl

/-- Two factors side by side; the printer writes an operator only between two digits. -/
theorem multiply {t : Term (Factor (Primary Atom))} {f : Factor (Primary Atom)}
    (h : Prints m form t.Writes) (h' : Prints m form' f.Writes) :
    Prints m (m.join form form') (Term.multiply t false f).Writes := by
  obtain ⟨w, hw, hs⟩ := h
  obtain ⟨w', hw', hs'⟩ := h'
  rw [Markup.join_eq]
  split
  next =>
    have hsep : endsWithDigit m.separator = false ∧ beginsWithDigit m.separator = false := by
      cases m <;> decide
    have hright := Spells.separator.append hs' (by rw [hsep.1, Bool.false_and])
    refine ⟨_, ?_, hs.append hright ?_⟩
    · rw [Term.Writes]
      exact ⟨w, w', hw, hw', .inl ⟨[], rfl, rfl⟩⟩
    · rw [beginsWithDigit_append Spells.separator.form_ne_nil, hsep.2, Bool.and_false]
  next hd =>
    refine ⟨_, ?_, hs.append hs' (by simpa using hd)⟩
    rw [Term.Writes]
    exact ⟨w, w', hw, hw', .inr ⟨rfl, rfl⟩⟩

end Prints

/-- The pieces print the factors one after the other. -/
def PrintsFactors (m : Markup) : List (List Char) → List (Factor (Primary Atom)) → Prop :=
  List.Forall₂ fun form f => Prints m form f.Writes

theorem PrintsFactors.ne_nil {m : Markup} {forms : List (List Char)}
    {fs : List (Factor (Primary Atom))} (h : PrintsFactors m forms fs) :
    ∀ form ∈ forms, form ≠ [] := by
  induction h with
  | nil => exact List.forall_mem_nil _
  | cons hf _ ih => exact List.forall_mem_cons.mpr ⟨hf.ne_nil, ih⟩

/-- Joined pieces print the term of the factors. -/
theorem PrintsFactors.term {m : Markup} {forms : List (List Char)}
    {fs : List (Factor (Primary Atom))} (h : PrintsFactors m forms fs) (hne : fs ≠ []) :
    Prints m (forms.foldl m.join []) (Term.ofFactors fs).Writes := by
  have hfold : ∀ {forms fs}, PrintsFactors m forms fs → ∀ {form} {t : Term (Factor (Primary Atom))},
      Prints m form t.Writes → Prints m (forms.foldl m.join form)
        (fs.foldl (fun t f => .multiply t false f) t).Writes := by
    intro forms fs h
    induction h with
    | nil => exact id
    | cons hf _ ih => exact fun ht => ih (ht.multiply hf)
  cases h with
  | nil => exact absurd rfl hne
  | cons hf h =>
    rw [List.foldl_cons, Markup.nil_join, Term.ofFactors]
    exact hfold h hf.factor

/-! ### Numbers and variables -/

section Numbers

variable (m : Markup)

def fractionForm (n d : ℕ) : List Char :=
  match m with
  | .text => natDigits n ++ '/' :: natDigits d
  | .tex => "\\dfrac\x7b".toList ++ natDigits n ++ "\x7d\x7b".toList ++ natDigits d ++ ['\x7d']

theorem fractionForm_text (n d : ℕ) :
    fractionForm .text n d = natDigits n ++ '/' :: natDigits d := rfl

theorem fractionForm_tex (n d : ℕ) : fractionForm .tex n d =
    "\\dfrac\x7b".toList ++ natDigits n ++ "\x7d\x7b".toList ++ natDigits d ++ ['\x7d'] := rfl

def magnitudeForm (q : ℚ) : List Char :=
  if q.den = 1 then natDigits q.num.natAbs else fractionForm m q.num.natAbs q.den

theorem intDigits_eq (n : ℤ) : intDigits n = minusForm (decide (n < 0)) ++ natDigits n.natAbs := by
  rw [intDigits]
  by_cases h : n < 0 <;> simp [h, minusForm]

theorem number_eq (q : ℚ) :
    m.number q = minusForm (decide (q < 0)) ++ magnitudeForm m q := by
  have hsign : decide (q < 0) = decide (q.num < 0) := decide_eq_decide.mpr Rat.num_neg.symm
  cases m with
  | text =>
    rw [Markup.number, ratDigits, intDigits_eq, magnitudeForm, hsign]
    split
    next => rfl
    next => rw [fractionForm_text, List.append_assoc]
  | tex =>
    rw [Markup.number, magnitudeForm]
    split
    next => rw [intDigits_eq, hsign]
    next =>
      have hminus : (if q < 0 then ['-'] else []) = minusForm (decide (q < 0)) := by
        by_cases h : q < 0 <;> simp [h, minusForm]
      rw [hminus, fractionForm_tex]
      simp only [List.append_assoc]

theorem prints_natural (n : ℕ) : Prints m (natDigits n) (Grammar.natural n).Writes :=
  ⟨_, by rw [Grammar.natural, Primary.Writes], .natural n⟩

theorem quotient_writes {q : ℚ} (h : q.den ≠ 1) : (quotient q).Writes
    [.atom (.number (.ofNat q.num.natAbs)), .operator .over, .atom (.number (.ofNat q.den))] := by
  have hatom : ∀ n, (Factor.operand (Grammar.natural n)).Writes [.atom (.number (.ofNat n))] :=
    fun n => by rw [Factor.Writes, Grammar.natural, Primary.Writes]
  rw [quotient, if_neg h, Term.Writes]
  exact ⟨_, [], _, by rw [Term.Writes]; exact hatom _, hatom _, rfl, rfl⟩

/-- A quotient in plain text. -/
theorem prints_quotient (q : ℚ) : Prints .text (magnitudeForm .text q) (quotient q).Writes := by
  rw [magnitudeForm]
  split
  next h =>
    rw [quotient, if_pos h]
    exact (prints_natural .text _).operand.factor
  next h =>
    have hover : Spells .text ('/' :: natDigits q.den)
        [.operator .over, .atom (.number (.ofNat q.den))] :=
      Spells.slash.append (.natural _) rfl
    exact ⟨_, quotient_writes h, (Spells.natural q.num.natAbs).append hover (Bool.and_false _)⟩

/-- A number without its sign, as a style writes it as an operand. -/
def operandForm (q : ℚ) : List Char :=
  if q.den = 1 ∨ m = .tex then magnitudeForm m q else m.group (magnitudeForm m q)

theorem prints_magnitude (q : ℚ) : Prints m (operandForm m q) (magnitude q).Writes := by
  rw [operandForm, magnitude]
  by_cases h : q.den = 1
  · rw [if_pos (.inl h), if_pos h, magnitudeForm, if_pos h]
    exact prints_natural m _
  · rw [if_neg h]
    cases m with
    | text =>
      rw [if_neg (by simp [h])]
      exact ((prints_quotient q).term false).group
    | tex =>
      rw [if_pos (.inr rfl), magnitudeForm, if_neg h]
      refine ⟨_, ?_, .fraction q.num.natAbs q.den⟩
      rw [Primary.Writes]
      refine ⟨[_, _, _], ?_, rfl⟩
      rw [Tree.Writes]
      exact ⟨[], _, quotient_writes h, rfl, rfl⟩

theorem prints_number (q : ℚ) : Prints m (magnitudeForm m q) (Grammar.number m q).Writes := by
  cases m with
  | text => exact prints_quotient q
  | tex =>
    have := prints_magnitude .tex q
    rw [operandForm, if_pos (.inr rfl)] at this
    exact this.operand.factor

/-- The pieces that a coefficient prints as, without its sign. -/
def leadingForms (q : ℚ) : List (List Char) := if |q| = 1 then [] else [operandForm m q]

theorem prints_leading (q : ℚ) : PrintsFactors m (leadingForms m q) (leading q) := by
  rw [leadingForms, leading]
  split
  next => exact .nil
  next => exact .cons (prints_magnitude m q).operand .nil

theorem coefficient_eq (q : ℚ) : m.coefficient q =
    minusForm (decide (q < 0)) ++ (leadingForms m q).foldl m.join [] := by
  rw [Markup.coefficient, leadingForms]
  by_cases h1 : q = 1
  · subst h1
    rw [if_pos rfl, if_pos (by rw [abs_one])]
    rfl
  · by_cases hm1 : q = -1
    · subst hm1
      rw [if_neg h1, if_pos rfl, if_pos (by rw [abs_neg, abs_one])]
      rfl
    · have habs : |q| ≠ 1 := by
        rw [ne_eq, abs_eq one_pos.le]
        exact fun h => h.elim h1 hm1
      rw [if_neg h1, if_neg hm1, if_neg habs, List.foldl_cons, List.foldl_nil, Markup.nil_join]
      have hsize : ∀ q' : ℚ, q'.num.natAbs = q.num.natAbs → q'.den = q.den → 0 ≤ q' →
          (if q'.den = 1 ∨ m = .tex then m.number q' else '(' :: m.number q' ++ [')']) =
            operandForm m q := by
        intro q' hnum hden hnonneg
        have hform : m.number q' = magnitudeForm m q := by
          rw [number_eq, decide_eq_false (not_lt.mpr hnonneg), magnitudeForm, magnitudeForm, hnum,
            hden]
          rfl
        rw [hform, hden, operandForm]
        cases m with
        | text => rfl
        | tex => rw [if_pos (.inr rfl), if_pos (.inr rfl)]
      by_cases hneg : q < 0
      · have := hsize (-q) (by rw [Rat.num_neg_eq_neg_num, Int.natAbs_neg]) (Rat.den_neg_eq_den q)
          (neg_nonneg.mpr hneg.le)
        simpa [hneg, minusForm] using this
      · have := hsize q rfl rfl (not_lt.mp hneg)
        simpa [hneg, minusForm] using this

end Numbers

/-! ### Powers -/

namespace Expr

section Powers

variable {m : Markup} {b e : Expr}

theorem prints_letter {name : String} (hl : (var name).Lettered) :
    Prints m name.toList (letter name).Writes := by
  obtain ⟨c, hc, rfl⟩ := hl name (by rw [names]; exact List.mem_singleton_self _)
  rw [letter, String.toList_singleton]
  exact ⟨_, by rw [Primary.Writes]; rfl, .letter hc⟩

def PrintsTree (m : Markup) (e : Expr) : Prop := Prints m (e.markup m) (Tree.Writes (e.tree m))

theorem prints_basePrimary (hl : b.Lettered) (h : b.PrintsTree m) :
    Prints m (if b.isBareBase then b.markup m else m.group (b.markup m))
      (basePrimary b (b.tree m)).Writes := by
  cases b with
  | var name =>
    rw [markup]
    exact prints_letter hl
  | num n =>
    rw [basePrimary]
    split
    next hb =>
      rw [isBareBase, Num.isNegative_eq, Bool.and_eq_true, Num.isInteger_iff,
        Bool.not_eq_true'] at hb
      rw [markup, number_eq, hb.1, magnitudeForm, if_pos hb.2]
      exact prints_natural m _
    next => exact h.group
  | power | product | sum => exact h.group

/-- An exponent as it is printed, with the caret. -/
def raisedForm (m : Markup) (e : Expr) (form : List Char) : List Char :=
  match m with
  | .text => '^' :: (if e.isBareExponent then form else m.group form)
  | .tex => ['^', '\x7b'] ++ form ++ ['\x7d']

theorem powerMarkup_eq (baseForm exponentForm : List Char) :
    powerMarkup m b e baseForm exponentForm =
      (if b.isBareBase then baseForm else m.group baseForm) ++ raisedForm m e exponentForm := by
  cases m with
  | text => rfl
  | tex => simp [powerMarkup, raisedForm]

theorem spells_caret : Spells .text ['^'] [.operator .caret] :=
  .symbol nofun rfl (fun _ => rfl) (by decide) (by decide)

/-- The expression, raised, prints as a caret, a run of signs and the given factor. -/
def PrintsRaised (m : Markup) (e : Expr) (p : Bool × Factor (Primary Atom)) : Prop :=
  ∃ signs w, p.2.Writes w ∧ negative signs = p.1 ∧
    Spells m (raisedForm m e (e.markup m)) (.operator .caret :: (signTokens signs ++ w))

/-- An exponent in brackets. -/
theorem printsRaised_group (h : e.PrintsTree m) (hbare : m = .text → e.isBareExponent = false) :
    PrintsRaised m e (false, .operand (.group (e.tree m))) := by
  obtain ⟨w, hw, hs⟩ := h
  refine ⟨[], .opening :: (w ++ [.closing]), ?_, rfl, ?_⟩
  · rw [Factor.Writes, Primary.Writes]
    exact ⟨w, hw, rfl⟩
  · cases m with
    | text =>
      rw [raisedForm, hbare rfl, if_neg Bool.false_ne_true]
      exact spells_caret.append hs.group rfl
    | tex =>
      rw [raisedForm, List.append_assoc]
      exact Spells.openingBrace.append (hs.append Spells.closingBrace (Bool.and_false _)) rfl

theorem printsRaised (hl : e.Lettered) (h : e.PrintsTree m) :
    PrintsRaised m e (exponentFactor m e (e.tree m)) := by
  cases m with
  | tex => exact printsRaised_group h nofun
  | text =>
    cases e with
    | var name =>
      obtain ⟨w, hw, hs⟩ := (prints_letter (m := .text) hl).operand
      refine ⟨[], w, hw, rfl, ?_⟩
      rw [markup]
      exact spells_caret.append hs rfl
    | num n =>
      rw [exponentFactor]
      split
      next he =>
        obtain ⟨w, hw, hs⟩ := (prints_natural .text n.value.num.natAbs).operand
        have hint : n.value.den = 1 := Num.isInteger_iff.mp he
        rw [Num.isNegative_eq, PrintsRaised, raisedForm, if_pos he, markup, number_eq,
          magnitudeForm, if_pos hint]
        cases decide (n.value < 0) with
        | false => exact ⟨[], w, hw, rfl, spells_caret.append hs rfl⟩
        | true =>
          exact ⟨[.minus], w, hw, rfl, spells_caret.append (Spells.minus.append hs rfl) rfl⟩
      next he => exact printsRaised_group h fun _ => Bool.eq_false_iff.mpr he
    | power | product | sum => exact printsRaised_group h fun _ => rfl

theorem prints_powerFactor (hlb : b.Lettered) (hle : e.Lettered) (hb : b.PrintsTree m)
    (he : e.PrintsTree m) : Prints m (powerMarkup m b e (b.markup m) (e.markup m))
      (powerFactor m b e (b.tree m) (e.tree m)).Writes := by
  obtain ⟨wb, hwb, hsb⟩ := prints_basePrimary hlb hb
  obtain ⟨signs, we, hwe, hsigns, hse⟩ := printsRaised hle he
  have hcaret : beginsWithDigit (raisedForm m e (e.markup m)) = false := by
    cases m <;> exact (by decide : Text.hasDigitValue '^' = false)
  rw [powerMarkup_eq]
  refine ⟨_, ?_, hsb.append hse (by rw [hcaret, Bool.and_false])⟩
  rw [powerFactor, Factor.Writes]
  exact ⟨wb, signs, we, hwb, hwe, hsigns, rfl⟩

end Powers

/-! ### Products and sums -/

section Entries

variable {m : Markup}

/-- As a factor, an expression stands in brackets if it is a sum. -/
def factorForm (m : Markup) (e : Expr) : List Char :=
  if e.isSum then m.group (e.markup m) else e.markup m

theorem factorForm_of_not_sum {e : Expr} (h : e.isSum = false) :
    e.factorForm m = e.markup m := by
  rw [factorForm, h, if_neg Bool.false_ne_true]

/-- The expression prints as its factors.  A number and a product with a coefficient are left out,
which are never printed as factors. -/
def PrintsChain (m : Markup) (e : Expr) : Prop :=
  e.isNum = false → e.coefficient.isOne = true →
    ∃ forms, PrintsFactors m forms (e.chain m) ∧ e.factorForm m = forms.foldl m.join []

/-- What is no product prints as a single factor. -/
theorem exists_chain {e : Expr} (h : e.isProduct = false) : ∃ f, e.chain m = [f] := by
  cases e with
  | product => exact nomatch h
  | _ => rw [chain]; exact ⟨_, rfl⟩

theorem entries_ne_nil {factors : List (Expr × Expr)} (h : factors ≠ []) :
    entries m factors ≠ [] := by
  obtain ⟨⟨b, e⟩, factors, rfl⟩ := List.exists_cons_of_ne_nil h
  rw [entries]
  refine List.append_ne_nil_of_left_ne_nil ?_ _
  split
  · split
    next => exact List.cons_ne_nil _ _
    next hp =>
      obtain ⟨f, hf⟩ := exists_chain (m := m) (Bool.eq_false_iff.mpr hp)
      rw [hf]
      exact List.cons_ne_nil _ _
  · exact List.cons_ne_nil _ _

theorem terms_ne_nil {summands : List (Expr × Num)} (h : summands ≠ []) :
    terms m summands ≠ [] := by
  obtain ⟨⟨t, c⟩, summands, rfl⟩ := List.exists_cons_of_ne_nil h
  rw [terms]
  exact List.cons_ne_nil _ _

theorem chain_ne_nil {e : Expr} (hc : e.Canonical) : e.chain m ≠ [] := by
  cases hc with
  | product _ _ _ _ form =>
    rw [chain]
    exact List.append_ne_nil_of_right_ne_nil _ (entries_ne_nil form.ne_nil)
  | _ => rw [chain]; exact List.cons_ne_nil _ _

/-- The entries of a product print as their factors, joined to what is already written. -/
theorem prints_entries {factors : List (Expr × Expr)}
    (hl : ∀ p ∈ factors, p.1.Lettered ∧ p.2.Lettered) (hn : ∀ p ∈ factors, p.1.isNum = false)
    (hnested : ∀ p ∈ factors, p.1.isProduct = true → p.2.isOne = false)
    (h : ∀ p ∈ factors, (p.1.PrintsTree m ∧ p.1.PrintsChain m) ∧ p.2.PrintsTree m) :
    ∃ forms, PrintsFactors m forms (entries m factors) ∧
      ∀ before, factorsMarkup m before factors = forms.foldl m.join before := by
  induction factors with
  | nil => exact ⟨[], by rw [entries]; exact .nil, fun before => by rw [factorsMarkup]; rfl⟩
  | cons p factors ih =>
    obtain ⟨b, e⟩ := p
    rw [List.forall_mem_cons] at hl hn hnested h
    obtain ⟨⟨htree, hchain⟩, hexponent⟩ := h.1
    obtain ⟨forms, hforms, hmarkup⟩ := ih hl.2 hn.2 hnested.2 h.2
    by_cases h1 : e.isOne = true
    · -- With the exponent one, the factor is the base, which is a single factor.
      have hproduct : b.isProduct = false := by
        by_contra hp
        rw [Bool.not_eq_false] at hp
        exact Bool.false_ne_true ((hnested.1 hp).symm.trans h1)
      obtain ⟨f, hf⟩ := exists_chain (m := m) hproduct
      have hcoefficient : b.coefficient.isOne = true := by
        rw [coefficient_of_not_product hproduct]
        rfl
      obtain ⟨pieces, hpieces, hjoin⟩ := hchain hn.1 hcoefficient
      rw [hf] at hpieces
      cases hpieces with
      | cons hpiece hnil =>
        cases hnil
        rw [List.foldl_cons, List.foldl_nil, Markup.nil_join] at hjoin
        refine ⟨b.factorForm m :: forms, ?_, fun before => ?_⟩
        · rw [entries, if_pos h1, hproduct, if_neg Bool.false_ne_true, hf]
          exact .cons (hjoin ▸ hpiece) hforms
        · rw [factorsMarkup, h1, if_pos rfl, hproduct, Bool.or_false, hmarkup, List.foldl_cons,
            factorForm]
    · refine ⟨powerMarkup m b e (b.markup m) (e.markup m) :: forms, ?_, fun before => ?_⟩
      · rw [entries, if_neg h1]
        exact .cons (prints_powerFactor hl.1.1 hl.1.2 htree hexponent) hforms
      · rw [factorsMarkup, if_neg h1, hmarkup, List.foldl_cons]

/-- What the entry of a sum adds after the terms already written. -/
theorem coefficient_join {before : List Char} {sign : List Char} {t : Expr} {c : Num}
    {forms : List (List Char)} (hforms : ∀ form ∈ forms, form ≠ [])
    (hjoin : t.factorForm m = forms.foldl m.join [])
    (hbefore : plusBefore before c.value ++ minusForm c.isNegative = before ++ sign)
    (hsign : endsWithDigit (before ++ sign) = false) :
    m.join (plusBefore before c.value ++ m.coefficient c.value) (t.factorForm m) =
      before ++ (sign ++ (leadingForms m c.value ++ forms).foldl m.join []) := by
  rw [coefficient_eq, ← Num.isNegative_eq, ← List.append_assoc, ← List.append_assoc, hbefore,
    Markup.append_join m hsign, hjoin, ← Markup.foldl_join m hforms, List.foldl_append,
    List.append_assoc]

/-- The sign of a first term. -/
theorem plusBefore_nil (c : Num) :
    plusBefore [] c.value ++ minusForm c.isNegative = [] ++ minusForm c.isNegative := rfl

/-- The sign between two terms. -/
theorem plusBefore_of_ne_nil {before : List Char} (h : before ≠ []) (c : Num) :
    plusBefore before c.value ++ minusForm c.isNegative = before ++ signForm c.isNegative := by
  have hempty : before.isEmpty = false := by simpa using h
  rw [plusBefore, hempty, Num.isNegative_eq]
  by_cases hc : c.value < 0
  · simp [minusForm, signForm, hc, not_le.mpr hc]
  · simp [minusForm, signForm, hc, not_lt.mp hc]

theorem endsWithDigit_append_signForm (before : List Char) (negated : Bool) :
    endsWithDigit (before ++ signForm negated) = false := by
  rw [endsWithDigit_append (by cases negated <;> exact List.cons_ne_nil _ _),
    endsWithDigit_signForm]

structure PrintsEntry (m : Markup) (p : Expr × Num) : Prop where
  chain : p.1.PrintsChain m
  chain_ne_nil : p.1.chain m ≠ []
  not_num : p.1.isNum = false
  coefficient : p.1.coefficient.isOne = true

theorem PrintsEntry.forms {p : Expr × Num} (h : PrintsEntry m p) :
    ∃ forms, (∀ form ∈ forms, form ≠ []) ∧ p.1.factorForm m = forms.foldl m.join [] ∧
      Prints m ((leadingForms m p.2.value ++ forms).foldl m.join [])
        (Term.ofFactors (leading p.2.value ++ p.1.chain m)).Writes := by
  obtain ⟨forms, hforms, hjoin⟩ := h.chain h.not_num h.coefficient
  refine ⟨forms, hforms.ne_nil, hjoin, PrintsFactors.term ?_ ?_⟩
  · exact List.rel_append (prints_leading m p.2.value) hforms
  · exact List.append_ne_nil_of_right_ne_nil _ h.chain_ne_nil

/-- Further entries of a sum print as further terms. -/
theorem prints_further {summands : List (Expr × Num)} (h : ∀ p ∈ summands, PrintsEntry m p)
    {before : List Char} {s : Grammar.Tree Atom} (hs : Prints m before (Tree.Writes s)) :
    Prints m (summandsMarkup m before summands)
      (Tree.Writes ((terms m summands).foldl (fun s p => .add s (signIf p.1) p.2) s)) := by
  induction summands generalizing before s with
  | nil => rwa [summandsMarkup, terms]
  | cons p summands ih =>
    obtain ⟨t, c⟩ := p
    rw [List.forall_mem_cons] at h
    obtain ⟨forms, hne, hjoin, hterm⟩ := h.1.forms
    rw [summandsMarkup, terms, List.foldl_cons]
    have hentry := coefficient_join hne hjoin (plusBefore_of_ne_nil hs.ne_nil c)
      (endsWithDigit_append_signForm before _)
    rw [factorForm] at hentry
    rw [hentry]
    exact ih h.2 (hs.add hterm _)

/-- The entries of a sum print as its terms. -/
theorem prints_terms {summands : List (Expr × Num)} (h : ∀ p ∈ summands, PrintsEntry m p)
    (hne : summands ≠ []) :
    Prints m (summandsMarkup m [] summands) (Tree.Writes (Tree.ofTerms (terms m summands))) := by
  obtain ⟨⟨t, c⟩, summands, rfl⟩ := List.exists_cons_of_ne_nil hne
  rw [List.forall_mem_cons] at h
  obtain ⟨forms, hne, hjoin, hterm⟩ := h.1.forms
  have hentry := coefficient_join hne hjoin (plusBefore_nil c) (by
    rw [List.nil_append, endsWithDigit_minusForm])
  rw [factorForm] at hentry
  rw [summandsMarkup, terms, Tree.ofTerms, hentry]
  exact prints_further h.2 (hterm.term _)

/-- The constant of a sum prints as its last term. -/
theorem prints_constant {before : List Char}
    {ts : List (Bool × Grammar.Term (Factor (Primary Atom)))}
    (h : Prints m before (Tree.Writes (Tree.ofTerms ts))) (hne : ts ≠ []) (c : Num) :
    Prints m (if c.isZero then before else plusBefore before c.value ++ m.number c.value)
      (Tree.Writes (Tree.ofTerms (ts ++ constantTerm m c))) := by
  rw [constantTerm]
  split
  next => rwa [List.append_nil]
  next =>
    have hsum : Tree.ofTerms (ts ++ [(c.isNegative, Grammar.number m c.value)]) =
        .add (Tree.ofTerms ts) (signIf c.isNegative) (Grammar.number m c.value) := by
      obtain ⟨p, ts, rfl⟩ := List.exists_cons_of_ne_nil hne
      rw [List.cons_append, Tree.ofTerms, List.foldl_append, Tree.ofTerms]
      rfl
    have hplus := plusBefore_of_ne_nil h.ne_nil c
    rw [hsum, number_eq, ← Num.isNegative_eq, ← List.append_assoc, hplus, List.append_assoc]
    exact h.add (prints_number m c.value) _

/-- What is printed as one factor prints as a tree and as factors. -/
theorem prints_single {f : Factor (Primary Atom)} {e : Expr} (hs : e.isSum = false)
    (htree : e.tree m = .term false (.factor f)) (hchain : e.chain m = [f])
    (h : Prints m (e.markup m) f.Writes) : e.PrintsTree m ∧ e.PrintsChain m := by
  refine ⟨?_, fun _ _ => ⟨[e.markup m], ?_, ?_⟩⟩
  · rw [PrintsTree, htree]
    exact h.factor.term false
  · rw [hchain]
    exact .cons h .nil
  · rw [factorForm_of_not_sum hs, List.foldl_cons, List.foldl_nil, Markup.nil_join]

/-- A product prints as its coefficient and the factors of its entries. -/
theorem prints_product {age : Nat} {c : Num} {factors : List (Expr × Expr)}
    (form : ProductForm c factors) {forms : List (List Char)}
    (hforms : PrintsFactors m forms (entries m factors))
    (hmarkup : ∀ before, factorsMarkup m before factors = forms.foldl m.join before) :
    (Expr.product age c factors).PrintsTree m ∧ (Expr.product age c factors).PrintsChain m := by
  have hfactors : PrintsFactors m (leadingForms m c.value ++ forms)
      (leading c.value ++ entries m factors) := List.rel_append (prints_leading m c.value) hforms
  have hproduct : (Expr.product age c factors).markup m = minusForm c.isNegative ++
      (leadingForms m c.value ++ forms).foldl m.join [] := by
    rw [markup, hmarkup, coefficient_eq, Num.isNegative_eq,
      Markup.foldl_append_join m (endsWithDigit_minusForm _), List.foldl_append]
  refine ⟨?_, fun _ h1 => ⟨_, by rw [chain]; exact hfactors, ?_⟩⟩
  · rw [PrintsTree, hproduct, tree]
    refine (hfactors.term ?_).term _
    exact List.append_ne_nil_of_right_ne_nil _ (entries_ne_nil form.ne_nil)
  · have hpositive : c.isNegative = false := by
      rw [Num.isNegative_eq, show c.value = 1 from Num.isOne_iff.mp h1]
      rfl
    rw [factorForm_of_not_sum rfl, hproduct, hpositive]
    rfl

/-- A sum prints as its terms and its constant, and in brackets as a factor. -/
theorem prints_sum {age : Nat} {c : Num} {summands : List (Expr × Num)} (form : SumForm c summands)
    (h : ∀ p ∈ summands, PrintsEntry m p) :
    (Expr.sum age c summands).PrintsTree m ∧ (Expr.sum age c summands).PrintsChain m := by
  have htree : (Expr.sum age c summands).PrintsTree m := by
    rw [PrintsTree, markup, tree]
    exact prints_constant (prints_terms h form.ne_nil) (terms_ne_nil form.ne_nil) c
  refine ⟨htree, fun _ _ => ⟨[m.group ((Expr.sum age c summands).markup m)], ?_, ?_⟩⟩
  · rw [PrintsTree, tree] at htree
    rw [chain]
    exact .cons htree.group.operand .nil
  · rw [factorForm, isSum, if_pos rfl, List.foldl_cons, List.foldl_nil, Markup.nil_join]

/-- Canonical expressions print as their trees and as their factors. -/
theorem prints_of_canonical {e : Expr} (hc : e.Canonical) (hl : e.Lettered) :
    e.PrintsTree m ∧ e.PrintsChain m := by
  induction hc with
  | num n _ =>
    refine ⟨?_, fun hn => nomatch hn⟩
    rw [PrintsTree, markup, tree, number_eq, ← Num.isNegative_eq]
    exact (prints_number m n.value).term _
  | var name =>
    refine prints_single rfl (by rw [tree]) (by rw [chain]) ?_
    rw [markup]
    exact (prints_letter hl).operand
  | power age _ _ form ihb ihe =>
    obtain ⟨hlb, hle⟩ := hl.power
    refine prints_single rfl (by rw [tree]) (by rw [chain]) ?_
    rw [markup, form.exponent_ne_one, if_neg Bool.false_ne_true]
    exact prints_powerFactor hlb hle (ihb hlb).1 (ihe hle).1
  | product age _ _ _ form ihb ihe =>
    obtain ⟨forms, hforms, hmarkup⟩ := prints_entries hl.product form.base_not_num form.nested
      fun p hp => ⟨ihb p hp (hl.product p hp).1, (ihe p hp (hl.product p hp).2).1⟩
    exact prints_product form hforms hmarkup
  | sum age _ hterms _ form ih =>
    exact prints_sum form fun p hp => ⟨(ih p hp (hl.sum p hp)).2, chain_ne_nil (hterms p hp),
      form.term_not_num p hp, form.term_coefficient p hp⟩

end Entries

/-! ## Readings -/

/-- **The printed form of a canonical expression is read as its tree.** -/
theorem readAs_tree (m : Markup) {e : Expr} (hc : e.Canonical) (hl : e.Lettered) :
    ReadAs (m.plain (e.markup m)) (e.tree m) := by
  obtain ⟨w, hw, hs⟩ := (prints_of_canonical (m := m) hc hl).1
  have hreads := hs.reads [] nofun
  have hnil : Text.dropBlanks (m.plain []) = [] := by cases m <;> rfl
  rw [List.append_nil, hnil, List.append_nil] at hreads
  refine ⟨w, 0, ?_, by rwa [List.replicate_zero, List.append_nil]⟩
  rw [hreads]
  exact .of_apart hs.proper hs.apart

/-- **Printed forms mean the expression.**  The text form of an expression, and its TeX form once
the markup is translated, has tokens and is read as a tree, whose value is that of the expression
for every assignment and every meaning of powers for which the exponent one changes nothing. -/
theorem format_means {e : Expr} (h : e.Obtainable) (hl : e.Lettered) (m : Markup) :
    ∃ s : Grammar.Tree Atom, ReadAs (m.plain (e.format (.markup m)).toList) s ∧
      tokenize (String.ofList (m.plain (e.format (.markup m)).toList)) = .ok (Tree.tokens s) ∧
      ∀ (ρ : String → Option ℚ) (pow : ℚ → ℚ → Option ℚ), (∀ x, pow x 1 = some x) →
        Tree.value ρ pow s = e.interpret ρ pow := by
  have hread := readAs_tree m h.canonical hl
  have hform : (e.format (.markup m)).toList = e.markup m := String.toList_ofList
  rw [hform]
  refine ⟨e.tree m, hread, tokenize_of_readAs ?_, fun ρ pow hpow =>
    value_tree hpow h.canonical hl m⟩
  rwa [String.toList_ofList]

/-- The square of a variable with a negative fraction in front. -/
def halfSquare : Expr := .product 8 ⟨.ofRat (-1 / 2), 5⟩ [(.var "x", .num ⟨2, 7⟩)]

/-- The TeX form of the product reads as minus one half of the square. -/
theorem format_means_halfSquare : ∃ s : Grammar.Tree Atom,
    ReadAs (Markup.tex.plain (halfSquare.format .tex).toList) s ∧
      tokenize "-(1/2)x^(2)" = .ok (Tree.tokens s) ∧
      Tree.value (fun _ => some 2) Partial.power? s = some (-2) := by
  have hobtainable : halfSquare.Obtainable :=
    @Obtainable.product [.num ⟨.ofRat (-1 / 2), 5⟩, .var "x", .var "x"] [] _ Supply.initial
      (by simp [Obtainable.num, Obtainable.var]) (by simp) (by cbv)
  have hlettered : halfSquare.Lettered := by
    intro name hname
    simp only [halfSquare, names, factorsNames, List.append_nil, List.mem_singleton] at hname
    exact ⟨'x', by decide, hname⟩
  have htext :
      String.ofList (Markup.tex.plain (halfSquare.format .tex).toList) = "-(1/2)x^(2)" := by
    cbv
  obtain ⟨s, hread, htokens, hvalue⟩ := format_means hobtainable hlettered .tex
  refine ⟨s, hread, htext ▸ htokens, ?_⟩
  rw [hvalue _ _ Partial.power?_one]
  norm_num [halfSquare, interpret, interpretFactors, raise, Partial.power?]

end Expr

end ExactAlgebra
