import ExactAlgebra.Proofs.Written.Normal
import ExactAlgebra.Proofs.Written.Scan

/-!
# Words and their tokens

A text has tokens exactly if, with its blanks dropped and with brackets closed at its end, it is a
word of the grammar

    E = S* T {S+ T}
    T = F {('*' | '/') S* F | F}
    F = A ['^' S* F]
    A = numeral | letter | '(' E ')'

where `S` is a sign.  The tokens are those of the word, with every run of signs folded and with a
multiplication between factors that touch.

* `Token.Cut`: a text cut into raw tokens, the longest numerals first.
* `Word`: a token list that the grammar derives.  `normalForm`: the word with its signs folded.
* `Token.scanFrom_pieces`: the scanner finds raw tokens that are proper and apart in their text.
* `normalize_of_writes`: the writing of a tree is put in normal form.
* `ReadAs`: a text is read as a tree.  `tokenize_of_readAs`, `exists_readAs`: the tokens of a text
  are those of the tree as which it is read.
* `tokenize_iff_word`: the texts that have tokens, and the tokens that they have.
-/

namespace ExactAlgebra

/-! ## Cutting a text -/

namespace Text

theorem isLetter_of_isDigit {c : Char} (h : c.isDigit = true) : isLetter c = false := by
  have table : ∀ n : Fin 128, (Char.ofNat n).isDigit = true → isLetter (Char.ofNat n) = false := by
    decide +kernel
  exact forall_ascii (P := fun c => c.isDigit = true → isLetter c = false) table
    (toNat_lt_of_isDigit h) h

end Text

namespace Numeral

/-- The longest numeral at the beginning of a text is the one that is followed by neither a digit
nor a point. -/
theorem Proper.span_append {n : Numeral} (hn : n.Proper) {rest : List Char}
    (hr : ∀ c, rest.head? = some c → c.isDigit = false ∧ c ≠ '.') :
    span (n.chars ++ rest) = n := by
  obtain ⟨whole, fraction⟩ := n
  cases fraction with
  | none =>
    obtain ⟨htake, hdrop⟩ := takeWhile_digits hn.whole fun c hc => (hr c hc).1
    rw [chars, span, htake, hdrop]
    split
    next => exact absurd rfl (hr '.' rfl).2
    next => rfl
  | some fraction =>
    have hpoint : ∀ c, ('.' :: (fraction ++ rest)).head? = some c → c.isDigit = false := by
      rintro c hc
      obtain rfl := Option.some.inj hc
      rfl
    obtain ⟨htake, hdrop⟩ := takeWhile_digits hn.whole hpoint
    obtain ⟨htake', -⟩ := takeWhile_digits hn.fraction fun c hc => (hr c hc).1
    rw [Option.getD_some] at htake'
    simp only [chars, span, List.append_assoc, List.cons_append, htake, hdrop, htake']

end Numeral

namespace Token

/-- The text cut into raw tokens: each of them is properly written, every numeral is the longest one
at its place, and no two numerals stand side by side. -/
structure Cut (text : List Char) (raw : List Token) : Prop where
  pieces : raw.flatMap chars = text
  proper : ∀ t ∈ raw, t.Proper
  longest : ∀ before n after, raw = before ++ .atom (.number n) :: after → ∀ m : Numeral, m.Proper →
    m.chars <+: n.chars ++ after.flatMap chars → m.chars.length ≤ n.chars.length
  apart : raw.IsChain Apart

/-- After a numeral, raw tokens that are apart go on with neither a digit nor a point. -/
theorem head_after_number {n : Numeral} {raw : List Token} (hp : ∀ t ∈ raw, t.Proper)
    (ha : (Token.atom (.number n) :: raw).IsChain Apart) {c : Char}
    (hc : (raw.flatMap chars).head? = some c) : c.isDigit = false ∧ c ≠ '.' := by
  cases raw with
  | nil => exact nomatch hc
  | cons t raw =>
    rw [List.flatMap_cons] at hc
    cases t with
    | atom a =>
      cases a with
      | number m => exact absurd rfl ((List.isChain_cons.mp ha).1 _ rfl n m rfl)
      | «variable» name =>
        obtain rfl := Option.some.inj hc
        have hletter : Text.isLetter name = true := hp _ List.mem_cons_self
        refine ⟨?_, ?_⟩
        · by_contra hd
          rw [Text.isLetter_of_isDigit (by simpa using hd)] at hletter
          exact nomatch hletter
        · rintro rfl
          exact absurd hletter (by decide)
    | opening => obtain rfl := Option.some.inj hc; decide
    | closing => obtain rfl := Option.some.inj hc; decide
    | operator o => obtain rfl := Option.some.inj hc; cases o <;> decide

/-- Proper raw tokens that are apart are a cut of their text. -/
theorem Cut.of_apart {raw : List Token} (hp : ∀ t ∈ raw, t.Proper) (ha : raw.IsChain Apart) :
    Cut (raw.flatMap chars) raw where
  pieces := rfl
  proper := hp
  apart := ha
  longest := by
    rintro before n after rfl m hm ⟨suffix, hsuffix⟩
    have hafter : ∀ t ∈ after, t.Proper := fun t ht =>
      hp t (List.mem_append_right _ (List.mem_cons_of_mem _ ht))
    by_contra hlt
    rw [not_le] at hlt
    -- The character after the numeral would belong to the longer one.
    rw [List.append_eq_append_iff] at hsuffix
    rcases hsuffix with ⟨rest, hrest, -⟩ | ⟨rest, hrest, hafter'⟩
    · rw [hrest, List.length_append] at hlt
      omega
    · cases rest with
      | nil => rw [hrest, List.append_nil] at hlt; exact absurd hlt (Nat.lt_irrefl _)
      | cons c rest =>
        obtain ⟨hd, hpoint⟩ := head_after_number hafter ha.right_of_append (c := c)
          (by rw [hafter']; rfl)
        rcases hm.isDigit_or (c := c) (by rw [hrest]; simp) with h | h
        · rw [h] at hd; exact nomatch hd
        · exact hpoint h

theorem scanFrom_skip (chars rest : List Char) (position : Nat) :
    scanFrom chars.length position (chars ++ rest) =
      scanFrom 0 (position + chars.length) rest := by
  induction chars generalizing position with
  | nil => rfl
  | cons c chars ih =>
    rw [List.length_cons, List.cons_append, scanFrom, ih]
    congr 1
    omega

/-- A numeral is read to its end if neither a digit nor a point follows it. -/
theorem scanFrom_number {n : Numeral} (hn : n.Proper) {rest : List Char}
    (hrest : ∀ c, rest.head? = some c → c.isDigit = false ∧ c ≠ '.') (position : Nat) :
    scanFrom 0 position (n.chars ++ rest) =
      (do return .atom (.number n) :: (← scanFrom 0 (position + n.chars.length) rest)) := by
  have hspan : Numeral.span (n.chars ++ rest) = n := hn.span_append hrest
  obtain ⟨d, ds, hd⟩ := List.exists_cons_of_ne_nil hn.chars_ne_nil
  have hfirst : (d.isDigit || d == '.') = true := by
    rcases hn.isDigit_or (c := d) (by rw [hd]; exact List.mem_cons_self) with h | rfl
    · rw [h]; rfl
    · rfl
  rw [hd, List.cons_append] at hspan
  rw [hd, List.cons_append, scanFrom, if_pos hfirst, List.length_cons,
    Nat.add_comm ds.length, ← Nat.add_assoc]
  simp only [hspan, if_neg hn.digits, hd, List.length_cons, Nat.add_sub_cancel, scanFrom_skip]

theorem scanFrom_variable {name : Char} (h : Text.isLetter name = true) (rest : List Char)
    (position : Nat) : scanFrom 0 position (name :: rest) =
      (do return .atom (.variable name) :: (← scanFrom 0 (position + 1) rest)) := by
  have hne : ∀ {c : Char}, Text.isLetter c = false → name ≠ c := by
    rintro c hc rfl
    rw [hc] at h
    cases h
  have hfirst : ¬ (name.isDigit || name == '.') = true := by
    rw [Bool.or_eq_true, beq_iff_eq]
    rintro (hdigit | hpoint)
    · rw [Text.isLetter_of_isDigit hdigit] at h; cases h
    · exact hne (by decide) hpoint
  have hoperator : Operator.ofChar? name = none := by
    cases ho : Operator.ofChar? name with
    | none => rfl
    | some o =>
      exact absurd (Operator.ofChar?_eq_some_iff.mp ho) (hne (by cases o <;> decide))
  rw [scanFrom, if_neg hfirst, if_neg (hne (by decide)), if_neg (hne (by decide)), hoperator]
  simp only [h, if_true]

theorem scanFrom_operator (o : Operator) (rest : List Char) (position : Nat) :
    scanFrom 0 position (o.char :: rest) =
      (do return .operator o :: (← scanFrom 0 (position + 1) rest)) := by
  have hfirst : ¬ (o.char.isDigit || o.char == '.') = true := by cases o <;> decide
  have hopening : o.char ≠ '(' := by cases o <;> decide
  have hclosing : o.char ≠ ')' := by cases o <;> decide
  rw [scanFrom, if_neg hfirst, if_neg hopening, if_neg hclosing,
    Operator.ofChar?_eq_some_iff.mpr rfl]

/-- The scanner takes a proper raw token from the text, and goes on behind it. -/
theorem scanFrom_token {t : Token} (ht : t.Proper) {rest : List Char}
    (hrest : ∀ n, t = .atom (.number n) → ∀ c, rest.head? = some c → c.isDigit = false ∧ c ≠ '.')
    (position : Nat) : scanFrom 0 position (t.chars ++ rest) =
      (do return t :: (← scanFrom 0 (position + t.chars.length) rest)) := by
  cases t with
  | atom a =>
    cases a with
    | number n => exact scanFrom_number ht (hrest n rfl) position
    | «variable» name => exact scanFrom_variable ht rest position
  | opening => rfl
  | closing => rfl
  | operator o => exact scanFrom_operator o rest position

/-- The scanner finds raw tokens that are proper and apart in their text. -/
theorem scanFrom_pieces {raw : List Token} (hp : ∀ t ∈ raw, t.Proper) (ha : raw.IsChain Apart)
    (position : Nat) : scanFrom 0 position (raw.flatMap chars) = .ok raw := by
  induction raw generalizing position with
  | nil => rfl
  | cons t raw ih =>
    obtain ⟨ht, hraw⟩ := List.forall_mem_cons.mp hp
    have hafter : ∀ n, t = .atom (.number n) → ∀ c, (raw.flatMap chars).head? = some c →
        c.isDigit = false ∧ c ≠ '.' := by
      rintro n rfl c hc
      exact head_after_number hraw ha hc
    rw [List.flatMap_cons, scanFrom_token ht hafter, ih hraw (List.isChain_cons.mp ha).2]
    rfl

end Token

namespace Grammar

/-! ## Folding a word -/

def beginsOperand : Token → Bool
  | .atom _ => true
  | .opening => true
  | _ => false

/-- What stands before a token in normal form, in place of the run of signs before it.  After an
operand, a run of signs becomes one sign, and where there is none, two operands are multiplied;
elsewhere a run of signs becomes a minus or nothing. -/
def joint (after : Bool) (signs : List Sign) (t : Token) : List Token :=
  match after, signs with
  | true, [] => if beginsOperand t then [.operator .times] else []
  | true, signs => [.operator (signOperator (signIf (negative signs)))]
  | false, signs => minusIf (negative signs)

/-- The normal form of what follows a run of signs; `after` tells whether the run follows an
operand. -/
def normalFormFrom (after : Bool) (signs : List Sign) : List Token → List Token
  | [] => []
  | .operator .plus :: w => normalFormFrom after (signs ++ [.plus]) w
  | .operator .minus :: w => normalFormFrom after (signs ++ [.minus]) w
  | t :: w => joint after signs t ++ t :: normalFormFrom t.endsOperand [] w

/-- The word with its runs of signs folded and with the multiplications that it implies. -/
def normalForm (w : List Token) : List Token := normalFormFrom false [] w

theorem normalFormFrom_signs (after : Bool) (signs signs' : List Sign) (w : List Token) :
    normalFormFrom after signs (signTokens signs' ++ w) =
      normalFormFrom after (signs ++ signs') w := by
  induction signs' generalizing signs with
  | nil => rw [List.append_nil]; rfl
  | cons sign signs' ih =>
    rw [← List.singleton_append (l := signs'), ← List.append_assoc, ← ih]
    cases sign with
    | plus => rfl
    | minus => rfl

/-- An operator other than a sign stays as it is. -/
theorem normalFormFrom_binary (o : Operator) (hp : o ≠ .plus) (hm : o ≠ .minus) (w : List Token) :
    normalFormFrom true [] (.operator o :: w) = .operator o :: normalFormFrom false [] w := by
  cases o with
  | plus => exact absurd rfl hp
  | minus => exact absurd rfl hm
  | _ => rfl

/-- What stands before an operand in normal form. -/
abbrev before (after : Bool) (signs : List Sign) : List Token := joint after signs .opening

mutual

theorem Primary.normalForm_of_writes (p : Primary Atom) {w : List Token} (h : p.Writes w)
    (after : Bool) (signs : List Sign) (rest : List Token) :
    normalFormFrom after signs (w ++ rest) =
      before after signs ++ (p.tokens ++ normalFormFrom true [] rest) := by
  cases p with
  | leaf a =>
    rw [Primary.Writes] at h
    subst h
    rw [Primary.tokens]
    rfl
  | group s =>
    rw [Primary.Writes] at h
    obtain ⟨w', hw', rfl⟩ := h
    have ih := Tree.normalForm_of_writes s hw' (.closing :: rest)
    rw [Primary.tokens, List.cons_append, List.append_assoc, List.singleton_append]
    change before after signs ++ .opening :: normalFormFrom false [] (w' ++ .closing :: rest) = _
    rw [ih, List.cons_append, List.append_assoc]
    rfl

theorem Factor.normalForm_of_writes (f : Factor (Primary Atom)) {w : List Token} (h : f.Writes w)
    (after : Bool) (signs : List Sign) (rest : List Token) :
    normalFormFrom after signs (w ++ rest) =
      before after signs ++ (f.tokens ++ normalFormFrom true [] rest) := by
  cases f with
  | operand p =>
    rw [Factor.Writes] at h
    rw [Factor.tokens, Primary.normalForm_of_writes p h]
  | power p negated f =>
    rw [Factor.Writes] at h
    obtain ⟨wp, signs', wf, hp, hf, rfl, rfl⟩ := h
    have ih := Factor.normalForm_of_writes f hf false signs' rest
    rw [List.append_assoc, Primary.normalForm_of_writes p hp, Factor.tokens, List.cons_append,
      List.append_assoc, normalFormFrom_binary .caret nofun nofun, normalFormFrom_signs,
      List.nil_append, ih]
    simp [before, joint]

theorem Term.normalForm_of_writes (t : Term (Factor (Primary Atom))) {w : List Token}
    (h : t.Writes w) (after : Bool) (signs : List Sign) (rest : List Token) :
    normalFormFrom after signs (w ++ rest) =
      before after signs ++ (t.tokens ++ normalFormFrom true [] rest) := by
  cases t with
  | factor f =>
    rw [Term.Writes] at h
    rw [Term.tokens, Factor.normalForm_of_writes f h]
  | multiply t negated f =>
    rw [Term.Writes] at h
    obtain ⟨wt, wf, ht, hf, ⟨signs', rfl, rfl⟩ | ⟨rfl, rfl⟩⟩ := h
    · have ih := Factor.normalForm_of_writes f hf false signs' rest
      rw [List.append_assoc, Term.normalForm_of_writes t ht, Term.tokens, List.cons_append,
        List.append_assoc, normalFormFrom_binary .times nofun nofun, normalFormFrom_signs,
        List.nil_append, ih]
      simp [before, joint]
    · have ih := Factor.normalForm_of_writes f hf true [] rest
      rw [List.append_assoc, Term.normalForm_of_writes t ht, Term.tokens, ih]
      simp [before, joint, beginsOperand, minusIf]
  | divide t negated f =>
    rw [Term.Writes] at h
    obtain ⟨wt, signs', wf, ht, hf, rfl, rfl⟩ := h
    have ih := Factor.normalForm_of_writes f hf false signs' rest
    rw [List.append_assoc, Term.normalForm_of_writes t ht, Term.tokens, List.cons_append,
      List.append_assoc, normalFormFrom_binary .over nofun nofun, normalFormFrom_signs,
      List.nil_append, ih]
    simp [before, joint]

theorem Tree.normalForm_of_writes (s : Tree Atom) {w : List Token} (h : Tree.Writes s w)
    (rest : List Token) : normalFormFrom false [] (w ++ rest) =
      Tree.tokens s ++ normalFormFrom true [] rest := by
  cases s with
  | term negated t =>
    rw [Tree.Writes] at h
    obtain ⟨signs, wt, ht, rfl, rfl⟩ := h
    rw [List.append_assoc, normalFormFrom_signs, List.nil_append, Term.normalForm_of_writes t ht,
      Tree.tokens, List.append_assoc]
    rfl
  | add s sign t =>
    rw [Tree.Writes] at h
    obtain ⟨ws, signs, wt, hs, ht, hne, rfl, rfl⟩ := h
    obtain ⟨sign, signs, rfl⟩ := List.exists_cons_of_ne_nil hne
    rw [List.append_assoc, List.append_assoc, Tree.normalForm_of_writes s hs, normalFormFrom_signs,
      List.nil_append, Term.normalForm_of_writes t ht, Tree.tokens]
    simp [before, joint]

end

/-- The normal form of a word is the token list of each tree that it writes. -/
theorem normalForm_of_writes {s : Tree Atom} {w : List Token} (h : Tree.Writes s w) :
    normalForm w = Tree.tokens s := by
  have := Tree.normalForm_of_writes s h []
  rwa [List.append_nil, normalFormFrom, List.append_nil] at this

/-! ## The normal form of a writing -/

section Runs

variable {source : String}

/-- The normalizer reads the tokens and has then the given output, at the same depth as before; the
last token that it has read is no opening bracket. -/
def Leads (source : String) (σ : Normalizer) (w output : List Token) : Prop :=
  ∃ t, t ≠ Token.opening ∧
    w.foldlM (Normalizer.step source) σ = .ok ⟨output, σ.depth, some t⟩

/-- First some tokens are read, then others. -/
theorem Leads.of_append {σ σ₁ : Normalizer} {w w' output : List Token}
    (h : w.foldlM (Normalizer.step source) σ = .ok σ₁) (hdepth : σ₁.depth = σ.depth)
    (h' : Leads source σ₁ w' output) : Leads source σ (w ++ w') output := by
  obtain ⟨t, ht, hrun⟩ := h'
  refine ⟨t, ht, ?_⟩
  rw [List.foldlM_append, h]
  exact hrun.trans (by rw [hdepth])

/-- Where no operand stands, a run of signs becomes a minus or nothing. -/
theorem foldlM_signs_atGap (source : String) (negated : Bool) {σ : Normalizer}
    {output : List Token} (hgap : AtGap output) (hσ : σ.output = minusIf negated ++ output)
    (signs : List Sign) :
    ∃ previous, (signTokens signs).foldlM (Normalizer.step source) σ =
      .ok ⟨minusIf (negated ^^ negative signs) ++ output, σ.depth, previous⟩ := by
  induction signs generalizing σ negated with
  | nil =>
    obtain ⟨o, d, previous⟩ := σ
    exact ⟨previous, by rw [negative, Bool.xor_false, ← hσ]; rfl⟩
  | cons sign signs ih =>
    cases sign with
    | plus =>
      have hafter : σ.afterOperand = false := by
        rw [Normalizer.afterOperand, hσ]
        exact hgap.minusIf negated
      obtain ⟨previous, h⟩ := ih negated (σ := ⟨σ.output, σ.depth, some (.operator .plus)⟩) hσ
      refine ⟨previous, ?_⟩
      rw [negative, ← h]
      change (Normalizer.step source σ (.operator .plus) >>= _) = _
      rw [Normalizer.step, hafter]
      rfl
    | minus =>
      obtain ⟨previous, h⟩ := ih (!negated)
        (σ := ⟨σ.outputForMinus, σ.depth, some (.operator .minus)⟩)
        (outputForMinus_atGap hgap hσ)
      refine ⟨previous, ?_⟩
      rw [negative, Bool.xor_not, ← Bool.not_xor, ← h]
      rfl

/-- After an operand, a run of signs becomes one sign. -/
theorem foldlM_signs_atOperand (source : String) (negated : Bool) {σ : Normalizer}
    {output : List Token} (hop : AtOperand output)
    (hσ : σ.output = .operator (signOperator (signIf negated)) :: output) (signs : List Sign) :
    ∃ previous, (signTokens signs).foldlM (Normalizer.step source) σ =
      .ok ⟨.operator (signOperator (signIf (negated ^^ negative signs))) :: output, σ.depth,
        previous⟩ := by
  induction signs generalizing σ negated with
  | nil =>
    obtain ⟨o, d, previous⟩ := σ
    exact ⟨previous, by rw [negative, Bool.xor_false, ← hσ]; rfl⟩
  | cons sign signs ih =>
    cases sign with
    | plus =>
      have hafter : σ.afterOperand = false := by rw [Normalizer.afterOperand, hσ]; rfl
      obtain ⟨previous, h⟩ := ih negated (σ := ⟨σ.output, σ.depth, some (.operator .plus)⟩) hσ
      refine ⟨previous, ?_⟩
      rw [negative, ← h]
      change (Normalizer.step source σ (.operator .plus) >>= _) = _
      rw [Normalizer.step, hafter]
      rfl
    | minus =>
      obtain ⟨previous, h⟩ := ih (!negated)
        (σ := ⟨σ.outputForMinus, σ.depth, some (.operator .minus)⟩)
        (outputForMinus_sign hop hσ)
      refine ⟨previous, ?_⟩
      rw [negative, Bool.xor_not, ← Bool.not_xor, ← h]
      rfl

/-- The first sign after an operand is an operator, and the signs after it are folded into it. -/
theorem foldlM_signs_after (source : String) {σ : Normalizer} (hop : AtOperand σ.output)
    {signs : List Sign} (hne : signs ≠ []) :
    ∃ previous, (signTokens signs).foldlM (Normalizer.step source) σ =
      .ok ⟨.operator (signOperator (signIf (negative signs))) :: σ.output, σ.depth, previous⟩ := by
  obtain ⟨sign, signs, rfl⟩ := List.exists_cons_of_ne_nil hne
  cases sign with
  | plus =>
    obtain ⟨previous, h⟩ := foldlM_signs_atOperand source false hop
      (σ := ⟨.operator .plus :: σ.output, σ.depth, some (.operator .plus)⟩) rfl signs
    refine ⟨previous, ?_⟩
    rw [negative, ← Bool.false_xor (negative signs), ← h]
    change (Normalizer.step source σ (.operator .plus) >>= _) = _
    have hafter : σ.afterOperand = true := hop
    rw [Normalizer.step, hafter]
    rfl
  | minus =>
    obtain ⟨previous, h⟩ := foldlM_signs_atOperand source true hop
      (σ := ⟨.operator .minus :: σ.output, σ.depth, some (.operator .minus)⟩) rfl signs
    refine ⟨previous, ?_⟩
    rw [negative, ← Bool.true_xor (negative signs), ← h]
    change (Normalizer.step source σ (.operator .minus) >>= _) = _
    rw [Normalizer.step, outputForMinus_atOperand hop]
    rfl

/-- The normal form does not end with a numeral if the tokens begin with one. -/
def Meets (σ : Normalizer) (w : List Token) : Prop :=
  ∀ n, σ.output.head? = some (.atom (.number n)) → ∀ m, w.head? ≠ some (.atom (.number m))

theorem outputForOperand_atGap {σ : Normalizer} {output : List Token} {negated : Bool}
    (hgap : AtGap output) (hσ : σ.output = minusIf negated ++ output) :
    σ.outputForOperand = σ.output := by
  rw [Normalizer.outputForOperand, Normalizer.afterOperand, hσ, hgap.minusIf negated]
  rfl

theorem meets_atGap {σ : Normalizer} {output : List Token} {negated : Bool}
    (hgap : AtGap output) (hσ : σ.output = minusIf negated ++ output) (w : List Token) :
    Meets σ w := by
  intro n hn
  have hafter := hgap.minusIf negated
  rw [← hσ, hn] at hafter
  exact nomatch hafter

/-- The normalizer reads an operand that may not touch a numeral before it. -/
def Accepts (source : String) (w tokens : List Token) : Prop :=
  ∀ σ, Meets σ w → Leads source σ w (tokens.reverse ++ σ.outputForOperand)

/-- An operator other than a sign is read after an operand. -/
theorem step_binary {σ : Normalizer} {o : Operator} (hp : o ≠ .plus) (hm : o ≠ .minus)
    (hop : AtOperand σ.output) : σ.step source (.operator o) =
      .ok ⟨.operator o :: σ.output, σ.depth, some (.operator o)⟩ := by
  have hafter : σ.afterOperand = true := hop
  cases o with
  | plus => exact absurd rfl hp
  | minus => exact absurd rfl hm
  | _ => exact if_pos hafter

/-- After an operand, an operator with a run of signs and another operand is read. -/
theorem Accepts.operator {σ : Normalizer} {o : Operator} (hp : o ≠ .plus) (hm : o ≠ .minus)
    {w tokens : List Token} (h : Accepts source w tokens) (hop : AtOperand σ.output)
    (signs : List Sign) : Leads source σ (.operator o :: (signTokens signs ++ w))
      ((.operator o :: (minusIf (negative signs) ++ tokens)).reverse ++ σ.output) := by
  have hgap : AtGap (.operator o :: σ.output) :=
    atGap_cons _ rfl (by simpa using hp) (by simpa using hm)
  obtain ⟨previous, hsigns⟩ := foldlM_signs_atGap source false hgap
    (σ := ⟨.operator o :: σ.output, σ.depth, some (.operator o)⟩) rfl signs
  rw [Bool.false_xor] at hsigns
  have hw := h ⟨minusIf (negative signs) ++ .operator o :: σ.output, σ.depth, previous⟩
    (meets_atGap hgap rfl _)
  rw [outputForOperand_atGap hgap rfl] at hw
  have hrun : (.operator o :: signTokens signs).foldlM (Normalizer.step source) σ =
      .ok ⟨minusIf (negative signs) ++ .operator o :: σ.output, σ.depth, previous⟩ := by
    rw [List.foldlM_cons, step_binary hp hm hop]
    exact hsigns
  have := Leads.of_append hrun rfl hw
  rwa [List.reverse_cons, List.reverse_append, reverse_minusIf, List.append_assoc,
    List.append_assoc, List.singleton_append]

/-- Two operands, of which the second one is read after the first. -/
theorem Leads.append {σ : Normalizer} {w w' output output' : List Token}
    (h : Leads source σ w output)
    (h' : ∀ σ' : Normalizer, σ'.output = output → Leads source σ' w' output') :
    Leads source σ (w ++ w') output' := by
  obtain ⟨t, -, hrun⟩ := h
  exact .of_append hrun rfl (h' ⟨output, σ.depth, some t⟩ rfl)

theorem Meets.left {σ : Normalizer} {w w' : List Token} (h : Meets σ (w ++ w')) (hb : Begins w) :
    Meets σ w := by
  rcases hb with ⟨a, w, rfl⟩ | ⟨w, rfl⟩ <;> exact h

/-- A token list that is apart does not meet what follows its last token. -/
theorem meets_of_apart {σ : Normalizer} {w w' : List Token} (ha : (w ++ w').IsChain Token.Apart)
    (hlast : σ.output.head? = w.getLast?) : Meets σ w' := by
  intro n hn m hm
  rw [hlast] at hn
  obtain ⟨l, rfl⟩ := List.getLast?_eq_some_iff.mp hn
  obtain ⟨r, rfl⟩ := List.head?_eq_some_iff.mp hm
  rw [List.append_assoc] at ha
  exact (List.isChain_cons.mp ha.right_of_append).1 _ rfl n m rfl rfl

end Runs

/-! ### Last tokens -/

theorem Primary.Writes.getLast? {p : Primary Atom} {w : List Token} (h : p.Writes w) :
    p.tokens.getLast? = w.getLast? := by
  cases p with
  | leaf a => rw [Primary.Writes] at h; rw [h, Primary.tokens]
  | group s =>
    rw [Primary.Writes] at h
    obtain ⟨w', -, rfl⟩ := h
    rw [Primary.tokens, ← List.cons_append, ← List.cons_append, List.getLast?_concat,
      List.getLast?_concat]

theorem getLast?_operand {before before' w w' : List Token} (hb : Begins w)
    (h : w.getLast? = w'.getLast?) : (before ++ w).getLast? = (before' ++ w').getLast? := by
  have hsome : ∃ t, w.getLast? = some t := by
    rcases hb with ⟨a, w, rfl⟩ | ⟨w, rfl⟩ <;> exact ⟨_, List.getLast?_cons ..⟩
  obtain ⟨t, ht⟩ := hsome
  rw [List.getLast?_append, List.getLast?_append, ← h, ht]
  rfl

theorem Factor.Writes.getLast? {f : Factor (Primary Atom)} {w : List Token} (h : f.Writes w) :
    f.tokens.getLast? = w.getLast? := by
  induction f generalizing w with
  | operand p => rw [Factor.Writes] at h; rw [Factor.tokens]; exact h.getLast?
  | power p negated f ih =>
    rw [Factor.Writes] at h
    obtain ⟨wp, signs, wf, -, hf, -, rfl⟩ := h
    rw [Factor.tokens, ← List.cons_append, ← List.cons_append, ← List.append_assoc,
      ← List.append_assoc]
    exact getLast?_operand f.begins (ih hf)

theorem Term.Writes.getLast? {t : Term (Factor (Primary Atom))} {w : List Token} (h : t.Writes w) :
    t.tokens.getLast? = w.getLast? := by
  cases t with
  | factor f => rw [Term.Writes] at h; rw [Term.tokens]; exact h.getLast?
  | multiply t negated f =>
    rw [Term.Writes] at h
    obtain ⟨wt, wf, -, hf, ⟨signs, -, rfl⟩ | ⟨-, rfl⟩⟩ := h
    · rw [Term.tokens, ← List.cons_append, ← List.cons_append, ← List.append_assoc,
        ← List.append_assoc]
      exact getLast?_operand f.begins hf.getLast?
    · rw [Term.tokens, ← List.cons_append, ← List.append_assoc]
      exact getLast?_operand f.begins hf.getLast?
  | divide t negated f =>
    rw [Term.Writes] at h
    obtain ⟨wt, signs, wf, -, hf, -, rfl⟩ := h
    rw [Term.tokens, ← List.cons_append, ← List.cons_append, ← List.append_assoc,
      ← List.append_assoc]
    exact getLast?_operand f.begins hf.getLast?

/-! ### Operands -/

theorem head?_append_of_atOperand {l : List Token} (h : AtOperand l) (r : List Token) :
    (l ++ r).head? = l.head? := by
  cases l with
  | nil => exact nomatch h
  | cons t l => rfl

section Runs

variable {source : String}

mutual

theorem Primary.accepts (p : Primary Atom) {w : List Token} (h : p.Writes w)
    (ha : w.IsChain Token.Apart) : Accepts source w p.tokens := by
  cases p with
  | leaf a =>
    rw [Primary.Writes] at h
    subst h
    intro σ hσ
    refine ⟨.atom a, nofun, ?_⟩
    rw [List.foldlM_cons, Primary.tokens, List.reverse_singleton, List.singleton_append]
    cases a with
    | number n =>
      rw [Normalizer.step]
      split
      next m output ho => exact absurd rfl (hσ m (by rw [ho]; rfl) n)
      next => rfl
    | «variable» name => rfl
  | group s =>
    rw [Primary.Writes] at h
    obtain ⟨w', hw', rfl⟩ := h
    intro σ _
    have hgap : AtGap (.opening :: σ.outputForOperand) := atGap_cons _ rfl nofun nofun
    obtain ⟨t, ht, hrun⟩ := Tree.leads s hw' ha.tail.left_of_append
      ⟨.opening :: σ.outputForOperand, σ.depth + 1, some .opening⟩ hgap
    refine ⟨Token.closing, nofun, ?_⟩
    have hafter : Normalizer.afterOperand
        ⟨(Tree.tokens s).reverse ++ .opening :: σ.outputForOperand, σ.depth + 1, some t⟩ = true :=
      (Tree.atOperand s).append _
    change ((w' ++ [Token.closing]).foldlM (Normalizer.step source)
      ⟨.opening :: σ.outputForOperand, σ.depth + 1, some .opening⟩) = _
    rw [List.foldlM_append, hrun, Primary.tokens]
    change (Normalizer.step source _ .closing >>= _) = _
    rw [Normalizer.step, if_neg (Nat.succ_ne_zero _), if_neg (by simpa using ht), hafter]
    simp only [List.reverse_cons, List.reverse_append, List.reverse_nil, List.nil_append,
      List.append_assoc, List.cons_append, Nat.add_sub_cancel, if_true]
    rfl

theorem Factor.accepts (f : Factor (Primary Atom)) {w : List Token} (h : f.Writes w)
    (ha : w.IsChain Token.Apart) : Accepts source w f.tokens := by
  cases f with
  | operand p =>
    rw [Factor.Writes] at h
    rw [Factor.tokens]
    exact Primary.accepts p h ha
  | power p negated f =>
    rw [Factor.Writes] at h
    obtain ⟨wp, signs, wf, hp, hf, rfl, rfl⟩ := h
    have haf := ha.right_of_append.tail.right_of_append
    intro σ hσ
    refine (Primary.accepts p hp ha.left_of_append σ (hσ.left hp.begins)).append
      fun σ' hσ' => ?_
    have hop : AtOperand σ'.output := by rw [hσ']; exact p.atOperand.append _
    have := (Factor.accepts f hf haf).operator (o := .caret) nofun nofun hop signs
    rwa [hσ', ← List.append_assoc, ← List.reverse_append, ← Factor.tokens] at this

theorem Term.accepts (t : Term (Factor (Primary Atom))) {w : List Token} (h : t.Writes w)
    (ha : w.IsChain Token.Apart) : Accepts source w t.tokens := by
  cases t with
  | factor f =>
    rw [Term.Writes] at h
    rw [Term.tokens]
    exact Factor.accepts f h ha
  | multiply t negated f =>
    rw [Term.Writes] at h
    obtain ⟨wt, wf, ht, hf, ⟨signs, rfl, rfl⟩ | ⟨rfl, rfl⟩⟩ := h
    · have haf := ha.right_of_append.tail.right_of_append
      intro σ hσ
      refine (Term.accepts t ht ha.left_of_append σ (hσ.left ht.begins)).append
        fun σ' hσ' => ?_
      have hop : AtOperand σ'.output := by rw [hσ']; exact t.atOperand.append _
      have := (Factor.accepts f hf haf).operator (o := .times) nofun nofun hop signs
      rwa [hσ', ← List.append_assoc, ← List.reverse_append, ← Term.tokens] at this
    · intro σ hσ
      refine (Term.accepts t ht ha.left_of_append σ (hσ.left ht.begins)).append
        fun σ' hσ' => ?_
      have hop : AtOperand σ'.output := by rw [hσ']; exact t.atOperand.append _
      have hlast : σ'.output.head? = wt.getLast? := by
        rw [hσ', head?_append_of_atOperand t.atOperand, List.head?_reverse, ht.getLast?]
      have := Factor.accepts f hf ha.right_of_append σ' (meets_of_apart ha hlast)
      have hafter : σ'.afterOperand = true := hop
      rw [Normalizer.outputForOperand, hafter, if_pos rfl, hσ', ← List.cons_append,
        ← List.append_assoc] at this
      simpa [Term.tokens, minusIf] using this
  | divide t negated f =>
    rw [Term.Writes] at h
    obtain ⟨wt, signs, wf, ht, hf, rfl, rfl⟩ := h
    have haf := ha.right_of_append.tail.right_of_append
    intro σ hσ
    refine (Term.accepts t ht ha.left_of_append σ (hσ.left ht.begins)).append
      fun σ' hσ' => ?_
    have hop : AtOperand σ'.output := by rw [hσ']; exact t.atOperand.append _
    have := (Factor.accepts f hf haf).operator (o := .over) nofun nofun hop signs
    rwa [hσ', ← List.append_assoc, ← List.reverse_append, ← Term.tokens] at this

/-- The writing of a tree is read where no operand stands. -/
theorem Tree.leads (s : Tree Atom) {w : List Token} (h : Tree.Writes s w)
    (ha : w.IsChain Token.Apart) (σ : Normalizer) (hσ : AtGap σ.output) :
    Leads source σ w ((Tree.tokens s).reverse ++ σ.output) := by
  cases s with
  | term negated t =>
    rw [Tree.Writes] at h
    obtain ⟨signs, wt, ht, rfl, rfl⟩ := h
    obtain ⟨previous, hsigns⟩ := foldlM_signs_atGap source false hσ rfl signs
    rw [Bool.false_xor] at hsigns
    have hw := Term.accepts t ht ha.right_of_append
      ⟨minusIf (negative signs) ++ σ.output, σ.depth, previous⟩ (meets_atGap hσ rfl _)
    rw [outputForOperand_atGap hσ rfl] at hw
    have := Leads.of_append hsigns rfl hw
    rwa [Tree.tokens, List.reverse_append, reverse_minusIf, List.append_assoc]
  | add s sign t =>
    rw [Tree.Writes] at h
    obtain ⟨ws, signs, wt, hs, ht, hne, rfl, rfl⟩ := h
    refine (Tree.leads s hs ha.left_of_append σ hσ).append fun σ' hσ' => ?_
    have hop : AtOperand σ'.output := by rw [hσ']; exact (Tree.atOperand s).append _
    obtain ⟨previous, hsigns⟩ := foldlM_signs_after source hop hne
    have hafter : ∀ m, Meets ⟨.operator (signOperator (signIf (negative signs))) :: σ'.output,
        σ'.depth, previous⟩ m := fun m n hn => nomatch hn
    have hw := Term.accepts t ht ha.right_of_append.right_of_append _ (hafter _)
    have := Leads.of_append hsigns rfl hw
    have hnot : Normalizer.afterOperand
        ⟨.operator (signOperator (signIf (negative signs))) :: σ'.output, σ'.depth, previous⟩ =
        false := rfl
    rw [Normalizer.outputForOperand, hnot, hσ'] at this
    simpa [Tree.tokens] using this

end

end Runs

/-! ### Closing brackets -/

/-- Closing brackets are read at the end of an operand, as many as are open. -/
theorem output_of_closings {source : String} {σ σ' : Normalizer} {k : ℕ}
    (h : (List.replicate k Token.closing).foldlM (Normalizer.step source) σ = .ok σ') :
    σ'.output = List.replicate k .closing ++ σ.output ∧ σ.depth = σ'.depth + k ∧
      (AtOperand σ'.output → AtOperand σ.output) := by
  induction k generalizing σ with
  | zero => cases h; exact ⟨rfl, rfl, id⟩
  | succ k ih =>
    obtain ⟨σ₁, hstep, hrest⟩ := Normalizer.foldlM_cons_eq_ok h
    obtain ⟨houtput, hdepth, -⟩ := ih hrest
    rw [Normalizer.step] at hstep
    split at hstep
    · exact nomatch hstep
    next hne =>
      split at hstep
      · exact nomatch hstep
      · split at hstep
        next ha =>
          cases hstep
          refine ⟨?_, ?_, fun _ => ha⟩
          · rw [houtput, List.replicate_succ', List.append_assoc]
            rfl
          · change σ.depth - 1 = _ at hdepth
            omega
        next => exact nomatch hstep

/-- **The writing of a tree is put in normal form**, also if it lacks closing brackets at its
end. -/
theorem normalize_of_writes {source : String} {s : Tree Atom} {raw : List Token} {k : ℕ}
    (h : Tree.Writes s (raw ++ List.replicate k Token.closing)) (ha : raw.IsChain Token.Apart) :
    Normalizer.normalize source raw = .ok (Tree.tokens s) := by
  have hclosing : ∀ t, Token.Apart t Token.closing := fun _ _ _ _ h => by cases h
  have hchain : (raw ++ List.replicate k Token.closing).IsChain Token.Apart := by
    refine ha.append (List.isChain_replicate_of_rel k (hclosing _)) fun t _ t' ht' => ?_
    obtain ⟨-, rfl⟩ := List.mem_replicate.mp (List.mem_of_mem_head? ht')
    exact hclosing t
  have hleads : Leads source .empty _ _ := Tree.leads s h hchain .empty (.inl rfl)
  obtain ⟨t, -, hrun⟩ := hleads
  rw [List.foldlM_append] at hrun
  cases hraw : raw.foldlM (Normalizer.step source) .empty with
  | error e => rw [hraw] at hrun; cases hrun
  | ok σ =>
    rw [hraw] at hrun
    obtain ⟨houtput, hdepth, hoperand⟩ := output_of_closings hrun
    have hop : AtOperand σ.output := hoperand ((Tree.atOperand s).append _)
    simp only [Normalizer.empty, List.append_nil, Nat.zero_add] at houtput hdepth
    have htokens : Tree.tokens s = σ.output.reverse ++ List.replicate k .closing := by
      rw [← List.reverse_reverse (Tree.tokens s), houtput, List.reverse_append,
        List.reverse_replicate]
    rw [Normalizer.normalize, hraw, htokens, ← hdepth]
    change σ.finish source = _
    rw [Normalizer.finish]
    split
    next e => rw [e] at hop; cases hop
    next e => rw [e] at hop; cases hop
    next last output _ e =>
      have hlast : last.endsOperand = true := by rw [e] at hop; exact hop
      rw [if_pos hlast]

/-! ## Readings -/

/-- The text is read as the tree: cut into raw tokens and with brackets closed at its end, it writes
the tree. -/
def ReadAs (text : List Char) (s : Tree Atom) : Prop :=
  ∃ raw k, Token.Cut (Text.dropBlanks text) raw ∧
    Tree.Writes s (raw ++ List.replicate k .closing)

/-- A text that is read as a tree has the tokens of the tree. -/
theorem tokenize_of_readAs {source : String} {s : Tree Atom} (h : ReadAs source.toList s) :
    tokenize source = .ok (Tree.tokens s) := by
  obtain ⟨raw, k, hcut, hw⟩ := h
  rw [tokenize, Token.scan, ← hcut.pieces, Token.scanFrom_pieces hcut.proper hcut.apart]
  exact normalize_of_writes hw hcut.apart

/-- A text that has tokens is cut into raw tokens that write a tree, when the brackets that they
leave open have been closed. -/
theorem exists_cut {source : String} {tokens : List Token} (h : tokenize source = .ok tokens) :
    ∃ (s : Tree Atom) (raw : List Token) (k : ℕ), Token.Cut (Text.dropBlanks source.toList) raw ∧
      Tree.Writes s (raw ++ List.replicate k .closing) ∧ Tree.tokens s = tokens ∧
      k + raw.count .closing = raw.count .opening := by
  obtain ⟨raw, hscan, hnormal⟩ := tokenize_eq_ok h
  obtain ⟨htext, hproper⟩ := Token.scan_eq_ok hscan
  obtain ⟨s, σ, hs, hrun, hw⟩ := exists_tree_of_normalize hnormal
  have hcut := Token.Cut.of_apart hproper (Normalizer.isChain_apart hrun).1
  have hdepth := Normalizer.depth_add hrun
  rw [htext] at hcut
  exact ⟨s, raw, σ.depth, hcut, hw, hs, by rwa [Normalizer.empty, Nat.zero_add] at hdepth⟩

/-- A text that has tokens is read as a tree. -/
theorem exists_readAs {source : String} {tokens : List Token} (h : tokenize source = .ok tokens) :
    ∃ s : Tree Atom, ReadAs source.toList s ∧ Tree.tokens s = tokens := by
  obtain ⟨s, raw, k, hcut, hw, hs, -⟩ := exists_cut h
  exact ⟨s, ⟨raw, k, hcut, hw⟩, hs⟩

/-- A text is read as the tree of its tokens. -/
theorem readAs_of_tokenize {source : String} {s : Tree Atom}
    (h : tokenize source = .ok (Tree.tokens s)) : ReadAs source.toList s := by
  obtain ⟨s', hs, htokens⟩ := exists_readAs h
  have hread := read?_tokens s'
  rw [htokens, read?_tokens s] at hread
  rwa [Option.some.inj hread]

/-- A text is read as one tree at most. -/
theorem ReadAs.unique {text : List Char} {s s' : Tree Atom} (h : ReadAs text s)
    (h' : ReadAs text s') : s = s' := by
  rw [← String.toList_ofList (l := text)] at h h'
  have htokens := (tokenize_of_readAs h).symm.trans (tokenize_of_readAs h')
  have hread := read?_tokens s
  rw [Except.ok.inj htokens, read?_tokens s'] at hread
  exact (Option.some.inj hread).symm

/-- The token list is a word of the grammar. -/
def Word (w : List Token) : Prop := ∃ s : Tree Atom, Tree.Writes s w

/-- **The texts that have tokens, and their tokens.**  A text has tokens iff, cut into raw tokens
and with some number of brackets closed at its end, it is a word; and its tokens are the word in
normal form. -/
theorem tokenize_iff_word (source : String) (tokens : List Token) :
    tokenize source = .ok tokens ↔ ∃ raw k, Token.Cut (Text.dropBlanks source.toList) raw ∧
      Word (raw ++ List.replicate k .closing) ∧
      tokens = normalForm (raw ++ List.replicate k .closing) := by
  constructor
  · intro h
    obtain ⟨s, ⟨raw, k, hcut, hw⟩, rfl⟩ := exists_readAs h
    exact ⟨raw, k, hcut, ⟨s, hw⟩, (normalForm_of_writes hw).symm⟩
  · rintro ⟨raw, k, hcut, ⟨s, hw⟩, rfl⟩
    rw [normalForm_of_writes hw]
    exact tokenize_of_readAs ⟨raw, k, hcut, hw⟩

end Grammar

end ExactAlgebra
