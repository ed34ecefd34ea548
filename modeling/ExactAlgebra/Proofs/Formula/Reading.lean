import ExactAlgebra.Proofs.Formula.Evaluation
import ExactAlgebra.Proofs.Written
import ExactAlgebra.Proofs.Written.Scan

/-!
# Formulas are read from writings

A token list that writes a tree is read, character by character, as the formula that the tree
denotes.  The tokens must be legible: no variables, every numeral proper, and no two numerals side
by side.

* `Legible`: token lists that can be told from their characters.
* `readNumber_chars`: a numeral is read as its value.
* `Tree.readSum_text`: the sum that is read from the writing of a tree.
-/

namespace ExactAlgebra

/-! ## Numbers -/

namespace Formula

theorem decimal_eq (digits : List Char) : Text.decimal digits = digitsValue digits := by
  rw [digitsValue, Nat.ofDigits_eq_foldr, List.foldr_map, List.foldr_reverse, Text.decimal]
  congr 1
  funext n c
  exact Nat.add_comm _ _

theorem digitsValue_append (digits digits' : List Char) : digitsValue (digits ++ digits') =
    digitsValue digits * 10 ^ digits'.length + digitsValue digits' := by
  rw [digitsValue, List.reverse_append, List.map_append, Nat.ofDigits_append, List.length_map,
    List.length_reverse, Nat.mul_comm, Nat.add_comm]
  rfl

theorem powerOfTen_eq (zeros : ℕ) : Text.powerOfTen zeros = 10 ^ zeros := rfl

end Formula

open Formula

/-- The decimal value by the places of the digits. -/
def Numeral.decimalValue (n : Numeral) : ℚ :=
  digitsValue n.whole + digitsValue (n.fraction.getD []) / 10 ^ (n.fraction.getD []).length

theorem Numeral.value_eq (n : Numeral) : n.value = n.decimalValue := by
  rw [value, digits, places, decimal_eq, powerOfTen_eq, digitsValue_append, decimalValue,
    Nat.cast_add, Nat.cast_mul, Nat.cast_pow, add_div, mul_div_cancel_right₀]
  · rfl
  · exact pow_ne_zero _ (by norm_num)

namespace Formula

/-- A numeral is read as its value. -/
theorem readNumber_chars {n : Numeral} (hn : n.Proper) {rest : List Char}
    (hr : ∀ c, rest.head? = some c → c.isDigit = false ∧ c ≠ '.') :
    readNumber (n.chars ++ rest) = some (n.value, rest) := by
  obtain ⟨whole, fraction⟩ := n
  cases fraction with
  | none =>
    obtain ⟨htake, hdrop⟩ := Numeral.takeWhile_digits hn.whole fun c hc => (hr c hc).1
    have hne : whole ≠ [] := fun h => hn.digits (by rw [Numeral.digits, h]; rfl)
    rw [readNumber, Numeral.chars, htake, hdrop]
    split
    next => exact absurd rfl (hr '.' rfl).2
    next =>
      rw [if_neg hne, Numeral.value, Numeral.digits, Numeral.places, Option.getD_none,
        List.append_nil, decimal_eq, powerOfTen_eq, List.length_nil, pow_zero, Nat.cast_one,
        div_one]
  | some fraction =>
    have hpoint : ∀ c, ('.' :: (fraction ++ rest)).head? = some c → c.isDigit = false := by
      rintro c hc
      obtain rfl := Option.some.inj hc
      rfl
    obtain ⟨htake, hdrop⟩ := Numeral.takeWhile_digits hn.whole hpoint
    obtain ⟨htake', hdrop'⟩ := Numeral.takeWhile_digits hn.fraction fun c hc => (hr c hc).1
    rw [Option.getD_some] at htake' hdrop'
    have hne : ¬ (whole = [] ∧ fraction = []) := fun h => hn.digits (by
      rw [Numeral.digits, h.1, h.2]; rfl)
    have hvalue : (Numeral.mk whole (some fraction)).value =
        digitsValue whole + digitsValue fraction / 10 ^ fraction.length := Numeral.value_eq _
    rw [readNumber, Numeral.chars, List.append_assoc, List.cons_append, htake, hdrop]
    simp only [htake', hdrop', if_neg hne, hvalue]

end Formula

namespace Grammar

/-! ## Legible token lists -/

def text (w : List Token) : List Char := w.flatMap Token.chars

theorem text_append (w w' : List Token) : text (w ++ w') = text w ++ text w' := List.flatMap_append

theorem text_cons (t : Token) (w : List Token) : text (t :: w) = t.chars ++ text w :=
  List.flatMap_cons

/-- No token is a variable, every token is properly written, and numerals stand apart. -/
structure Legible (w : List Token) : Prop where
  number : ∀ a, .atom a ∈ w → ∃ n, a = .number n
  proper : ∀ t ∈ w, t.Proper
  apart : w.IsChain Token.Apart

theorem Legible.right {w w' : List Token} (h : Legible (w ++ w')) : Legible w' where
  number a ha := h.number a (List.mem_append_right _ ha)
  proper t ht := h.proper t (List.mem_append_right _ ht)
  apart := h.apart.right_of_append

theorem Legible.tail {t : Token} {w : List Token} (h : Legible (t :: w)) : Legible w :=
  Legible.right (show Legible ([t] ++ w) from h)

/-- The first character of a legible token list. -/
theorem Legible.head {w : List Token} (h : Legible w) {c : Char} (hc : (text w).head? = some c) :
    ((∃ n, w.head? = some (.atom (.number n))) ∧ (c.isDigit = true ∨ c = '.')) ∨
    (w.head? = some .opening ∧ c = '(') ∨ (w.head? = some .closing ∧ c = ')') ∨
    ∃ o, w.head? = some (.operator o) ∧ c = o.char := by
  cases w with
  | nil => exact nomatch hc
  | cons t w =>
    rw [text_cons] at hc
    cases t with
    | atom a =>
      obtain ⟨n, rfl⟩ := h.number a List.mem_cons_self
      have hn : n.Proper := h.proper _ List.mem_cons_self
      obtain ⟨d, ds, hd⟩ := List.exists_cons_of_ne_nil hn.chars_ne_nil
      rw [Token.chars, hd, List.cons_append, List.head?_cons] at hc
      obtain rfl := Option.some.inj hc
      exact .inl ⟨⟨n, rfl⟩, hn.isDigit_or (by rw [hd]; exact List.mem_cons_self)⟩
    | opening => exact .inr (.inl ⟨rfl, (Option.some.inj hc).symm⟩)
    | closing => exact .inr (.inr (.inl ⟨rfl, (Option.some.inj hc).symm⟩))
    | operator o => exact .inr (.inr (.inr ⟨o, rfl, (Option.some.inj hc).symm⟩))

/-- An operator is seen in the characters. -/
theorem Legible.head_operator {w : List Token} (h : Legible w) {o : Operator}
    (ho : (text w).head? = some o.char) : w.head? = some (.operator o) := by
  rcases h.head ho with ⟨-, hc⟩ | ⟨-, hc⟩ | ⟨-, hc⟩ | ⟨o', hw, hc⟩
  · cases o <;> rcases hc with hc | hc <;> exact absurd hc (by decide)
  · cases o <;> exact absurd hc (by decide)
  · cases o <;> exact absurd hc (by decide)
  · rw [hw]
    cases o <;> cases o' <;> first | rfl | exact absurd hc (by decide)

/-- What follows a numeral does not continue it. -/
theorem Legible.head_after_number {n : Numeral} {w : List Token}
    (h : Legible (.atom (.number n) :: w)) {c : Char} (hc : (text w).head? = some c) :
    c.isDigit = false ∧ c ≠ '.' := by
  rcases h.tail.head hc with ⟨⟨m, hw⟩, -⟩ | ⟨-, rfl⟩ | ⟨-, rfl⟩ | ⟨o, -, rfl⟩
  · exact absurd rfl ((List.isChain_cons.mp h.apart).1 _ hw n m rfl)
  · decide
  · decide
  · cases o <;> decide

/-- A legible operand begins with a digit, a point or a bracket. -/
theorem Begins.head {w : List Token} (hb : Begins w) (h : Legible w) :
    ∃ c cs, text w = c :: cs ∧ (c.isDigit = true ∨ c = '.' ∨ c = '(') := by
  cases htext : text w with
  | nil =>
    rcases hb with ⟨a, w, rfl⟩ | ⟨w, rfl⟩
    · obtain ⟨n, rfl⟩ := h.number a List.mem_cons_self
      have hn : n.Proper := h.proper _ List.mem_cons_self
      exact absurd (List.append_eq_nil_iff.mp htext).1 hn.chars_ne_nil
    · exact nomatch htext
  | cons c cs =>
    refine ⟨c, cs, rfl, ?_⟩
    rcases h.head (by rw [htext]; rfl) with ⟨-, hc⟩ | ⟨-, hc⟩ | ⟨hw, -⟩ | ⟨o, hw, -⟩
    · exact hc.imp id .inl
    · exact .inr (.inr hc)
    · rcases hb with ⟨a, w, rfl⟩ | ⟨w, rfl⟩ <;> exact nomatch hw
    · rcases hb with ⟨a, w, rfl⟩ | ⟨w, rfl⟩ <;> exact nomatch hw

/-- A legible operand does not begin with an operator. -/
theorem Begins.head_ne {w : List Token} (hb : Begins w) (h : Legible w) (o : Operator) :
    (text w).head? ≠ some o.char := by
  intro ho
  have hw := h.head_operator ho
  rcases hb with ⟨a, w, rfl⟩ | ⟨w, rfl⟩ <;> exact nomatch hw

theorem length_text_le (w w' : List Token) : (text w').length ≤ (text (w ++ w')).length := by
  rw [text_append, List.length_append]
  exact Nat.le_add_left _ _

/-- A legible operand has a character. -/
theorem Begins.length_text_lt {w w' : List Token} (hb : Begins w) (h : Legible (w ++ w')) :
    (text w').length < (text (w ++ w')).length := by
  rcases hb with ⟨a, w, rfl⟩ | ⟨w, rfl⟩
  · obtain ⟨n, rfl⟩ := h.number a List.mem_cons_self
    have hn : n.Proper := h.proper _ List.mem_cons_self
    have hpos := List.length_pos_iff.mpr hn.chars_ne_nil
    have hle := length_text_le w w'
    rw [List.cons_append, text_cons, List.length_append]
    change _ < n.chars.length + _
    omega
  · have hle := length_text_le w w'
    rw [List.cons_append, text_cons, List.length_append]
    change _ < 1 + _
    omega

/-! ## Runs of signs -/

theorem takeSigns_of_head {chars : List Char} (hp : chars.head? ≠ some '+')
    (hm : chars.head? ≠ some '-') : Formula.takeSigns chars = (false, chars) := by
  unfold Formula.takeSigns
  split
  next => exact absurd rfl hp
  next => exact absurd rfl hm
  next => rfl

/-- A run of signs is taken as a whole. -/
theorem takeSigns_text (signs : List Sign) {w : List Token} (hb : Begins w) (h : Legible w) :
    Formula.takeSigns (text (signTokens signs ++ w)) = (negative signs, text w) := by
  induction signs with
  | nil =>
    change Formula.takeSigns (text w) = (false, text w)
    exact takeSigns_of_head (hb.head_ne h .plus) (hb.head_ne h .minus)
  | cons sign signs ih =>
    cases sign with
    | plus =>
      change Formula.takeSigns ('+' :: text (signTokens signs ++ w)) = _
      rw [Formula.takeSigns, ih, negative]
    | minus =>
      change Formula.takeSigns ('-' :: text (signTokens signs ++ w)) = _
      rw [Formula.takeSigns, ih, negative]

/-- An operand after a run of signs: the signs are taken, and the operand is shorter than both. -/
theorem takeSigns_operand (signs : List Sign) {w rest : List Token} (hb : Begins w)
    (h : Legible (w ++ rest)) :
    Formula.takeSigns (text (signTokens signs ++ (w ++ rest))) =
        (negative signs, text (w ++ rest)) ∧
      (text rest).length < (text (signTokens signs ++ (w ++ rest))).length := by
  refine ⟨takeSigns_text signs (hb.append rest) h, ?_⟩
  exact (hb.length_text_lt h).trans_le (length_text_le _ _)

/-! ## The formula of a writing -/

/-- What follows a product does not continue it. -/
def EndsProduct (w : List Token) : Prop :=
  w = [] ∨ w.head? = some .closing ∨ ∃ sign, w.head? = some (.operator (signOperator sign))

theorem EndsSum.endsProduct {w : List Token} (h : EndsSum w) : EndsProduct w := h.imp id .inl

theorem endsProduct_signs {signs : List Sign} (hs : signs ≠ []) (w : List Token) :
    EndsProduct (signTokens signs ++ w) := by
  cases signs with
  | nil => exact absurd rfl hs
  | cons sign signs => exact .inr (.inr ⟨sign, rfl⟩)

/-- What follows a product begins with no operator other than a sign. -/
theorem EndsProduct.head_ne {w : List Token} (h : EndsProduct w) {o : Operator}
    (ho : ∀ sign, signOperator sign ≠ o) : w.head? ≠ some (.operator o) := by
  rcases h with rfl | h | ⟨sign, h⟩
  · exact nofun
  · rw [h]
    exact nofun
  · rw [h]
    intro heq
    injection heq with heq
    injection heq with heq
    exact ho sign heq

theorem EndsProduct.endsFactor {w : List Token} (h : EndsProduct w) : EndsFactor w :=
  h.head_ne fun sign => by cases sign <;> nofun

theorem Begins.endsFactor {w : List Token} (h : Begins w) : EndsFactor w := by
  rcases h with ⟨a, w, rfl⟩ | ⟨w, rfl⟩ <;> exact nofun

theorem extendProduct_of_ends (φ : Formula) {w : List Token} (h : Legible w) (he : EndsProduct w) :
    φ.extendProduct (text w) = some (φ, text w) := by
  have htimes : w.head? ≠ some (.operator .times) :=
    he.head_ne fun sign => by cases sign <;> nofun
  have hover : w.head? ≠ some (.operator .over) :=
    he.head_ne fun sign => by cases sign <;> nofun
  have hstarts : Formula.startsOperand (text w) = false := by
    rcases he with rfl | he | ⟨sign, he⟩
    · rfl
    · obtain ⟨w, rfl⟩ := List.head?_eq_some_iff.mp he; rfl
    · obtain ⟨w, rfl⟩ := List.head?_eq_some_iff.mp he; cases sign <;> rfl
  rw [Formula.extendProduct, hstarts]
  · rfl
  · intro rest ht
    exact htimes (h.head_operator (by rw [ht]; rfl))
  · intro rest ht
    exact hover (h.head_operator (by rw [ht]; rfl))

/-- After an operator and a run of signs a power is taken into the product. -/
theorem extendProduct_operator (φ : Formula) (signs : List Sign) {w rest : List Token} {ψ : Formula}
    (hb : Begins w) (h : Legible (w ++ rest))
    (hread : Formula.readPower (text (w ++ rest)) = some (ψ, text rest)) :
    φ.extendProduct (text (.operator .times :: (signTokens signs ++ (w ++ rest)))) =
        (Formula.product φ (ψ.signed (negative signs))).extendProduct (text rest) ∧
      φ.extendProduct (text (.operator .over :: (signTokens signs ++ (w ++ rest)))) =
        (Formula.quotient φ (ψ.signed (negative signs))).extendProduct (text rest) := by
  obtain ⟨hsigns, hlt⟩ := takeSigns_operand signs hb h
  constructor
  · rw [text_cons, Token.chars, Operator.char, List.singleton_append, Formula.extendProduct]
    simp only [hsigns, hread, Option.bind_eq_bind, Option.bind_some, if_pos hlt]
  · rw [text_cons, Token.chars, Operator.char, List.singleton_append, Formula.extendProduct]
    simp only [hsigns, hread, Option.bind_eq_bind, Option.bind_some, if_pos hlt]

/-- A power that follows without an operator is taken into the product. -/
theorem extendProduct_adjacent (φ : Formula) {w rest : List Token} {ψ : Formula}
    (hb : Begins w) (h : Legible (w ++ rest))
    (hread : Formula.readPower (text (w ++ rest)) = some (ψ, text rest)) :
    φ.extendProduct (text (w ++ rest)) = (Formula.product φ ψ).extendProduct (text rest) := by
  have hbegins := hb.append rest
  obtain ⟨c, cs, htext, hc⟩ := hbegins.head h
  have hstarts : Formula.startsOperand (text (w ++ rest)) = true := by
    rw [htext, Formula.startsOperand]
    rcases hc with hc | rfl | rfl
    · rw [hc]; rfl
    · rfl
    · rfl
  rw [Formula.extendProduct, if_pos hstarts, hread]
  · simp only [Option.bind_eq_bind, Option.bind_some]
    rw [if_pos (hb.length_text_lt h)]
  · intro chars hchars
    exact hbegins.head_ne h .times (by rw [hchars]; rfl)
  · intro chars hchars
    exact hbegins.head_ne h .over (by rw [hchars]; rfl)

theorem extendSum_of_endsSum (φ : Formula) {w : List Token} (he : EndsSum w) :
    φ.extendSum (text w) = some (φ, text w) := by
  rw [Formula.extendSum, if_neg]
  rcases he with rfl | he
  · exact nofun
  · obtain ⟨w, rfl⟩ := List.head?_eq_some_iff.mp he
    change ¬ (some ')' = some '+' ∨ some ')' = some '-')
    decide

mutual

theorem Primary.readOperand_text (p : Primary Atom) {w rest : List Token} (hw : p.Writes w)
    (h : Legible (w ++ rest)) : ∃ φ, p.Denotes Atom.Denotes φ ∧
      Formula.readOperand (text (w ++ rest)) = some (φ, text rest) := by
  cases p with
  | leaf a =>
    rw [Primary.Writes] at hw
    subst hw
    obtain ⟨n, rfl⟩ := h.number a List.mem_cons_self
    have hn : n.Proper := h.proper _ List.mem_cons_self
    refine ⟨.number n.value, .leaf ⟨n, rfl, rfl⟩, ?_⟩
    rw [List.singleton_append] at h ⊢
    rw [text_cons, Token.chars, Formula.readOperand,
      Formula.readNumber_chars hn fun c hc => h.head_after_number hc]
    · rfl
    · intro cs hcs
      obtain ⟨d, ds, hd⟩ := List.exists_cons_of_ne_nil hn.chars_ne_nil
      rw [hd, List.cons_append] at hcs
      obtain ⟨rfl, -⟩ := List.cons.inj hcs
      exact absurd (hn.isDigit_or (by rw [hd]; exact List.mem_cons_self)) (by decide)
  | group s =>
    rw [Primary.Writes] at hw
    obtain ⟨w', hw', rfl⟩ := hw
    have hends : EndsSum (.closing :: rest) := .inr rfl
    rw [List.cons_append, List.append_assoc, List.singleton_append] at h ⊢
    obtain ⟨φ, hφ, hread⟩ := Tree.readSum_text s hw' h.tail hends.endsProduct
    refine ⟨.brackets φ, .group hφ, ?_⟩
    change Formula.readOperand ('(' :: text (w' ++ .closing :: rest)) = _
    rw [Formula.readOperand, hread, extendSum_of_endsSum φ hends]
    rfl

theorem Factor.readPower_text (f : Factor (Primary Atom)) {w rest : List Token} (hw : f.Writes w)
    (h : Legible (w ++ rest)) (he : EndsFactor rest) :
    ∃ φ, f.Denotes (Primary.Denotes Atom.Denotes) φ ∧
      Formula.readPower (text (w ++ rest)) = some (φ, text rest) := by
  cases f with
  | operand p =>
    rw [Factor.Writes] at hw
    obtain ⟨φ, hφ, hread⟩ := Primary.readOperand_text p hw h
    refine ⟨φ, .operand hφ, ?_⟩
    rw [Formula.readPower, hread]
    simp only [Option.bind_eq_bind, Option.bind_some]
    split
    next ht => exact absurd (h.right.head_operator (by rw [ht]; rfl)) he
    next => rfl
  | power p negated f =>
    rw [Factor.Writes] at hw
    obtain ⟨wp, signs, wf, hp, hf, rfl, rfl⟩ := hw
    rw [List.append_assoc, List.cons_append, List.append_assoc] at h ⊢
    have hlegible : Legible (wf ++ rest) := h.right.tail.right
    obtain ⟨φ, hφ, hread⟩ := Primary.readOperand_text p hp h
    obtain ⟨ψ, hψ, hread'⟩ := Factor.readPower_text f hf hlegible he
    obtain ⟨hsigns, -⟩ := takeSigns_operand signs hf.begins hlegible
    refine ⟨_, .power hφ (negative signs) hψ, ?_⟩
    rw [Formula.readPower, hread, text_cons]
    simp only [Option.bind_eq_bind, Option.bind_some, Token.chars, Operator.char,
      List.singleton_append, hsigns, hread']
    rw [if_pos]
    have hlt := hp.begins.length_text_lt h
    rw [text_cons, List.length_append] at hlt
    simp only [text_append, List.length_append] at hlt ⊢
    omega

theorem Term.readProduct_text (t : Term (Factor (Primary Atom))) {w rest : List Token}
    (hw : t.Writes w) (h : Legible (w ++ rest)) (he : EndsFactor rest) :
    ∃ φ, t.Denotes (Factor.Denotes (Primary.Denotes Atom.Denotes)) φ ∧
      Formula.readProduct (text (w ++ rest)) = φ.extendProduct (text rest) := by
  cases t with
  | factor f =>
    rw [Term.Writes] at hw
    obtain ⟨φ, hφ, hread⟩ := Factor.readPower_text f hw h he
    refine ⟨φ, .factor hφ, ?_⟩
    rw [Formula.readProduct, hread]
    simp only [Option.bind_eq_bind, Option.bind_some]
    rw [if_pos (hw.begins.length_text_lt h)]
  | multiply t negated f =>
    rw [Term.Writes] at hw
    obtain ⟨wt, wf, ht, hf, ⟨signs, rfl, rfl⟩ | ⟨rfl, rfl⟩⟩ := hw
    · rw [List.append_assoc, List.cons_append, List.append_assoc] at h ⊢
      have hlegible : Legible (wf ++ rest) := h.right.tail.right
      obtain ⟨φ, hφ, hread⟩ := Term.readProduct_text t ht h nofun
      obtain ⟨ψ, hψ, hread'⟩ := Factor.readPower_text f hf hlegible he
      refine ⟨_, .multiply hφ (negative signs) hψ, ?_⟩
      rw [hread, (extendProduct_operator φ signs hf.begins hlegible hread').1]
    · rw [List.append_assoc] at h ⊢
      obtain ⟨φ, hφ, hread⟩ := Term.readProduct_text t ht h (hf.begins.append rest).endsFactor
      obtain ⟨ψ, hψ, hread'⟩ := Factor.readPower_text f hf h.right he
      refine ⟨_, .multiply hφ false hψ, ?_⟩
      rw [hread, extendProduct_adjacent φ hf.begins h.right hread']
      rfl
  | divide t negated f =>
    rw [Term.Writes] at hw
    obtain ⟨wt, signs, wf, ht, hf, rfl, rfl⟩ := hw
    rw [List.append_assoc, List.cons_append, List.append_assoc] at h ⊢
    have hlegible : Legible (wf ++ rest) := h.right.tail.right
    obtain ⟨φ, hφ, hread⟩ := Term.readProduct_text t ht h nofun
    obtain ⟨ψ, hψ, hread'⟩ := Factor.readPower_text f hf hlegible he
    refine ⟨_, .divide hφ (negative signs) hψ, ?_⟩
    rw [hread, (extendProduct_operator φ signs hf.begins hlegible hread').2]

theorem Tree.readSum_text (s : Tree Atom) {w rest : List Token} (hw : Tree.Writes s w)
    (h : Legible (w ++ rest)) (he : EndsProduct rest) :
    ∃ φ, s.Denotes (Factor.Denotes (Primary.Denotes Atom.Denotes)) φ ∧
      Formula.readSum (text (w ++ rest)) = φ.extendSum (text rest) := by
  cases s with
  | term negated t =>
    rw [Tree.Writes] at hw
    obtain ⟨signs, wt, ht, rfl, rfl⟩ := hw
    rw [List.append_assoc] at h ⊢
    obtain ⟨φ, hφ, hread⟩ := Term.readProduct_text t ht h.right he.endsFactor
    obtain ⟨hsigns, hlt⟩ := takeSigns_operand signs ht.begins h.right
    refine ⟨_, .term (negative signs) hφ, ?_⟩
    rw [Formula.readSum]
    simp only [hsigns, hread, extendProduct_of_ends φ h.right.right he, Option.bind_eq_bind,
      Option.bind_some, if_pos hlt]
  | add s sign t =>
    rw [Tree.Writes] at hw
    obtain ⟨ws, signs, wt, hs, ht, hne, rfl, rfl⟩ := hw
    rw [List.append_assoc, List.append_assoc] at h ⊢
    obtain ⟨φ, hφ, hread⟩ := Tree.readSum_text s hs h (endsProduct_signs hne _)
    have hlegible : Legible (wt ++ rest) := h.right.right
    obtain ⟨ψ, hψ, hread'⟩ := Term.readProduct_text t ht hlegible he.endsFactor
    obtain ⟨hsigns, hlt⟩ := takeSigns_operand signs ht.begins hlegible
    have hhead : (text (signTokens signs ++ (wt ++ rest))).head? = some '+' ∨
        (text (signTokens signs ++ (wt ++ rest))).head? = some '-' := by
      obtain ⟨sign, signs, rfl⟩ := List.exists_cons_of_ne_nil hne
      cases sign
      · exact .inl rfl
      · exact .inr rfl
    rw [hread, Formula.extendSum, if_pos hhead]
    simp only [hsigns, hread', extendProduct_of_ends ψ hlegible.right he, Option.bind_eq_bind,
      Option.bind_some, if_pos hlt]
    cases negative signs with
    | false => exact ⟨_, .plus hφ hψ, rfl⟩
    | true => exact ⟨_, .minus hφ hψ, rfl⟩

end

end Grammar

end ExactAlgebra
