import ExactAlgebra.Proofs.Formula.Reading
import ExactAlgebra.Proofs.Printed.Spelling

/-!
# Numbers in writing

A number is written with decimal numerals,

    number = [sign] numeral ['/' numeral],

and there may be blanks around it.  A text of this form is read as the number that it denotes,
unless this would be a quotient by zero, and no other text is read as a number.

* `WrittenNumber`: what is written.  `WrittenNumber.chars`: how; `WrittenNumber.value`: what it
  denotes.
* `WrittenNumber.Spells`: a text writes a number, with blanks around it or not.
* `WrittenNumber.read_of_spells`, `Num.exists_spells`: a text is read as the number that it writes,
  and what is not malformed writes one.
* `Num.parse_exactly`: the number that is built from a text, and the faults.
-/

namespace ExactAlgebra

open Formula

/-! ## Blanks around a text -/

namespace Text

theorem trimEnd_append {after : List Char} (h : ∀ c ∈ after, isBlank c = true) (text : List Char) :
    trimEnd (text ++ after) = trimEnd text := by
  induction text with
  | nil => exact trimEnd_eq_nil_iff.mpr (List.all_eq_true.mpr h)
  | cons c text ih => rw [List.cons_append, trimEnd, ih, trimEnd]

theorem trimEnd_of_no_blank {text : List Char} (h : ∀ c ∈ text, isBlank c = false) :
    trimEnd text = text := by
  induction text with
  | nil => rfl
  | cons c text ih =>
    rw [List.forall_mem_cons] at h
    rw [trimEnd, ih h.2]
    split
    next => rw [if_neg (by rw [h.1]; exact Bool.false_ne_true)]
    next => rfl

/-- Blanks around a text without blanks are taken away. -/
theorem trim_append {before text after : List Char} (hbefore : ∀ c ∈ before, isBlank c = true)
    (hafter : ∀ c ∈ after, isBlank c = true) (h : ∀ c ∈ text, isBlank c = false)
    (hne : text ≠ []) : trim (before ++ text ++ after) = text := by
  obtain ⟨c, rest, rfl⟩ := List.exists_cons_of_ne_nil hne
  have hc : ¬ isBlank c = true := by rw [h c List.mem_cons_self]; exact nofun
  rw [trim, List.append_assoc, List.dropWhile_append_of_pos hbefore, List.cons_append,
    List.dropWhile_cons_of_neg hc, ← List.cons_append, trimEnd_append hafter, trimEnd_of_no_blank h]

theorem exists_trimEnd (text : List Char) :
    ∃ after, (∀ c ∈ after, isBlank c = true) ∧ text = trimEnd text ++ after := by
  induction text with
  | nil => exact ⟨[], nofun, rfl⟩
  | cons c text ih =>
    obtain ⟨after, hafter, htext⟩ := ih
    rw [trimEnd]
    split
    next h =>
      rw [h, List.nil_append] at htext
      split
      next hc => exact ⟨c :: after, List.forall_mem_cons.mpr ⟨hc, hafter⟩, by rw [htext]; rfl⟩
      next => exact ⟨after, hafter, by rw [htext]; rfl⟩
    next => exact ⟨after, hafter, by rw [List.cons_append, ← htext]⟩

/-- A text is what is left of it when it is trimmed, with blanks around it. -/
theorem exists_trim (text : List Char) :
    ∃ before after, (∀ c ∈ before, isBlank c = true) ∧ (∀ c ∈ after, isBlank c = true) ∧
      text = before ++ trim text ++ after := by
  obtain ⟨after, hafter, htext⟩ := exists_trimEnd (text.dropWhile isBlank)
  refine ⟨text.takeWhile isBlank, after, fun c hc => List.mem_takeWhile_imp hc, hafter, ?_⟩
  rw [trim, List.append_assoc, ← htext, List.takeWhile_append_dropWhile]

end Text

/-! ## Numerals -/

namespace Numeral

variable {n : Numeral}

/-- Moving the point to the right multiplies by a power of ten. -/
theorem scaled_eq {shift : ℕ} (h : n.places ≤ shift) :
    (n.scaled shift : ℚ) = n.decimalValue * 10 ^ shift := by
  have hten : (10 : ℚ) ^ n.places ≠ 0 := pow_ne_zero _ (by norm_num)
  rw [← value_eq, value, scaled, powerOfTen_eq, powerOfTen_eq, Nat.cast_mul, Nat.cast_pow,
    Nat.cast_pow, Nat.cast_ofNat, div_mul_eq_mul_div, eq_div_iff hten, mul_assoc, ← pow_add,
    Nat.sub_add_cancel h]

theorem ofChars?_eq_some_iff {text : List Char} :
    ofChars? text = some n ↔ n.Proper ∧ n.chars = text := by
  rw [ofChars?]
  constructor
  · intro h
    split at h
    next hspan =>
      obtain rfl := Option.some.inj h
      exact ⟨span_proper hspan.2, hspan.1⟩
    next => exact nomatch h
  · rintro ⟨hn, rfl⟩
    have hspan : span n.chars = n := by
      have h : span (n.chars ++ []) = n := hn.span_append nofun
      rwa [List.append_nil] at h
    rw [hspan]
    exact if_pos ⟨rfl, hn.digits⟩

/-- No character of a numeral is a sign or a slash. -/
theorem Proper.ne_of_mem (hn : n.Proper) {c : Char} (hc : c ∈ n.chars) :
    c ≠ '+' ∧ c ≠ '-' ∧ c ≠ '/' := by
  rcases hn.isDigit_or hc with h | rfl
  · refine ⟨?_, ?_, ?_⟩ <;> (rintro rfl; exact absurd h (by decide))
  · decide

end Numeral

/-! ## Written numbers -/

/-- A number as it is written: a sign or none, a numeral, and a second one after a slash or none. -/
structure WrittenNumber where
  sign : Option Sign
  numerator : Numeral
  denominator : Option Numeral

namespace WrittenNumber

def signChars : Option Sign → List Char
  | none => []
  | some .plus => ['+']
  | some .minus => ['-']

/-- The numeral after the slash, and the slash. -/
def overChars : Option Numeral → List Char
  | none => []
  | some d => '/' :: d.chars

def chars (w : WrittenNumber) : List Char :=
  signChars w.sign ++ (w.numerator.chars ++ overChars w.denominator)

def dividend (w : WrittenNumber) : ℚ :=
  if w.sign = some .minus then -w.numerator.decimalValue else w.numerator.decimalValue

/-- What stands after the slash, or one if there is none. -/
def divisor (w : WrittenNumber) : ℚ := w.denominator.elim 1 Numeral.decimalValue

/-- The number that is denoted if the divisor is not zero. -/
def value (w : WrittenNumber) : ℚ := w.dividend / w.divisor

/-- The number of places by which numerator and denominator are moved to be integers. -/
def places (w : WrittenNumber) : ℕ := max w.numerator.places (w.denominator.elim 0 Numeral.places)

def scaledDividend (w : WrittenNumber) : ℤ :=
  (w.sign.getD .plus).apply (w.numerator.scaled w.places)

def scaledDivisor (w : WrittenNumber) : ℕ :=
  w.denominator.elim (Text.powerOfTen w.places) (·.scaled w.places)

structure Proper (w : WrittenNumber) : Prop where
  numerator : w.numerator.Proper
  denominator : ∀ d, w.denominator = some d → d.Proper

/-- The text writes the number, with blanks around it or not. -/
structure Spells (w : WrittenNumber) (text : List Char) : Prop where
  proper : w.Proper
  chars : ∃ before after, (∀ c ∈ before, Text.isBlank c = true) ∧
    (∀ c ∈ after, Text.isBlank c = true) ∧ text = before ++ w.chars ++ after

variable {w : WrittenNumber} {text : List Char}

theorem signed_append {sign : Option Sign} {body : List Char}
    (h : ∀ c, body.head? = some c → c ≠ '+' ∧ c ≠ '-') :
    Num.signed (signChars sign ++ body) = (sign.getD .plus, body) := by
  rcases sign with _ | _ | _
  · rw [signChars, List.nil_append, Num.signed.eq_3]
    · rfl
    · rintro rest rfl
      exact (h _ rfl).2 rfl
    · rintro rest rfl
      exact (h _ rfl).1 rfl
  · rfl
  · rfl

theorem exists_sign (text : List Char) :
    ∃ sign, text = signChars sign ++ (Num.signed text).2 := by
  unfold Num.signed
  split
  next => exact ⟨some .minus, rfl⟩
  next => exact ⟨some .plus, rfl⟩
  next => exact ⟨none, rfl⟩

theorem takeWhile_slash (hw : w.Proper) :
    (w.numerator.chars ++ overChars w.denominator).takeWhile (· != '/') = w.numerator.chars ∧
      (w.numerator.chars ++ overChars w.denominator).dropWhile (· != '/') =
        overChars w.denominator := by
  have hnumerator : ∀ c ∈ w.numerator.chars, (c != '/') = true := fun c hc =>
    bne_iff_ne.mpr (hw.numerator.ne_of_mem hc).2.2
  rw [List.takeWhile_append_of_pos hnumerator, List.dropWhile_append_of_pos hnumerator]
  cases w.denominator with
  | none => exact ⟨List.append_nil _, rfl⟩
  | some d => exact ⟨List.append_nil _, rfl⟩

theorem Proper.not_isBlank (hw : w.Proper) : ∀ c ∈ w.chars, Text.isBlank c = false := by
  rw [WrittenNumber.chars, List.forall_mem_append, List.forall_mem_append]
  refine ⟨?_, fun c hc => hw.numerator.not_isBlank hc, ?_⟩
  · rcases w.sign with _ | _ | _
    · exact nofun
    · exact List.forall_mem_singleton.mpr (by decide)
    · exact List.forall_mem_singleton.mpr (by decide)
  · cases hd : w.denominator with
    | none => exact nofun
    | some d =>
      rw [overChars, List.forall_mem_cons]
      exact ⟨by decide, fun c hc => (hw.denominator d hd).not_isBlank hc⟩

theorem scaledDividend_eq (w : WrittenNumber) :
    (w.scaledDividend : ℚ) = w.dividend * 10 ^ w.places := by
  have hplaces : w.numerator.places ≤ w.places := le_max_left _ _
  rw [dividend, ite_mul, neg_mul, ← Numeral.scaled_eq hplaces, scaledDividend]
  rcases w.sign with _ | _ | _
  · rfl
  · rfl
  · rw [if_pos rfl, Option.getD_some, Sign.apply, Int.cast_neg, Int.cast_natCast]

theorem scaledDivisor_eq (w : WrittenNumber) :
    (w.scaledDivisor : ℚ) = w.divisor * 10 ^ w.places := by
  rw [scaledDivisor, divisor]
  cases hd : w.denominator with
  | none => rw [Option.elim_none, Option.elim_none, one_mul, powerOfTen_eq, Nat.cast_pow,
      Nat.cast_ofNat]
  | some d =>
    have hplaces : d.places ≤ w.places := by
      rw [places, hd]
      exact le_max_right _ _
    exact Numeral.scaled_eq hplaces

/-- A text that writes a number is taken apart into the sign and the numerals, and these are scaled
to integers. -/
theorem read?_of_spells (h : w.Spells text) :
    Num.read? text = some (w.scaledDividend, (w.scaledDivisor : ℤ)) := by
  obtain ⟨hw, before, after, hbefore, hafter, rfl⟩ := h
  have hne : w.chars ≠ [] := List.append_ne_nil_of_right_ne_nil _
    (List.append_ne_nil_of_left_ne_nil hw.numerator.chars_ne_nil _)
  have hhead : ∀ c, (w.numerator.chars ++ overChars w.denominator).head? = some c →
      c ≠ '+' ∧ c ≠ '-' := by
    rw [head?_append_of_ne_nil hw.numerator.chars_ne_nil]
    intro c hc
    have := hw.numerator.ne_of_mem (List.mem_of_mem_head? hc)
    exact ⟨this.1, this.2.1⟩
  obtain ⟨htake, hdrop⟩ := takeWhile_slash hw
  rw [Num.read?, Text.trim_append hbefore hafter hw.not_isBlank hne, WrittenNumber.chars,
    signed_append hhead]
  dsimp only
  rw [htake, hdrop, Numeral.ofChars?_eq_some_iff.mpr ⟨hw.numerator, rfl⟩, scaledDividend,
    scaledDivisor, places]
  cases hd : w.denominator with
  | none =>
    rw [Option.elim_none, Option.elim_none, Nat.max_zero]
    rfl
  | some d =>
    rw [overChars]
    dsimp only
    rw [Numeral.ofChars?_eq_some_iff.mpr ⟨hw.denominator d hd, rfl⟩]
    rfl

theorem scaledDivisor_eq_zero_iff (w : WrittenNumber) :
    (w.scaledDivisor : ℤ) = 0 ↔ w.divisor = 0 := by
  have hten : (10 : ℚ) ^ w.places ≠ 0 := pow_ne_zero _ (by norm_num)
  rw [Int.natCast_eq_zero, ← Nat.cast_eq_zero (R := ℚ), scaledDivisor_eq, mul_eq_zero,
    or_iff_left hten]

theorem scaledDividend_div (w : WrittenNumber) :
    (w.scaledDividend : ℚ) / ((w.scaledDivisor : ℤ) : ℚ) = w.value := by
  have hten : (10 : ℚ) ^ w.places ≠ 0 := pow_ne_zero _ (by norm_num)
  rw [Int.cast_natCast, scaledDividend_eq, scaledDivisor_eq, mul_div_mul_right _ _ hten, value]

end WrittenNumber

open WrittenNumber

theorem Num.exists_spells {text : List Char} (h : Num.read? text ≠ none) :
    ∃ w : WrittenNumber, w.Spells text := by
  obtain ⟨before, after, hbefore, hafter, htext⟩ := Text.exists_trim text
  obtain ⟨sign, hsigned⟩ := exists_sign (Text.trim text)
  generalize hbody : (Num.signed (Text.trim text)).2 = body at hsigned
  have hsplit := List.takeWhile_append_dropWhile (p := (· != '/')) (l := body)
  rw [Num.read?] at h
  dsimp only at h
  rw [hbody] at h
  split at h
  next hdrop =>
    cases hn : Numeral.ofChars? (body.takeWhile (· != '/')) with
    | none => rw [hn] at h; exact absurd rfl h
    | some n =>
      obtain ⟨hproper, hchars⟩ := Numeral.ofChars?_eq_some_iff.mp hn
      refine ⟨⟨sign, n, none⟩, ⟨hproper, nofun⟩, before, after, hbefore, hafter, ?_⟩
      rw [WrittenNumber.chars, overChars, List.append_nil, hchars]
      rw [hdrop, List.append_nil] at hsplit
      rw [hsplit, ← hsigned]
      exact htext
  next c rest hdrop =>
    cases hn : Numeral.ofChars? (body.takeWhile (· != '/')) with
    | none => rw [hn] at h; exact absurd rfl h
    | some n =>
    cases hd : Numeral.ofChars? rest with
    | none => rw [hn, hd] at h; exact absurd rfl h
    | some d =>
      obtain ⟨hn, hnchars⟩ := Numeral.ofChars?_eq_some_iff.mp hn
      obtain ⟨hd, hdchars⟩ := Numeral.ofChars?_eq_some_iff.mp hd
      obtain rfl : c = '/' := by
        have hhead := List.head?_dropWhile_not (· != '/') body
        rw [hdrop] at hhead
        exact bne_eq_false_iff_eq.mp hhead
      refine ⟨⟨sign, n, some d⟩, ⟨hn, by rintro _ ⟨⟩; exact hd⟩, before, after, hbefore, hafter, ?_⟩
      rw [WrittenNumber.chars, overChars, hnchars, hdchars, ← hdrop, hsplit, ← hsigned]
      exact htext

/-! ## Printed numbers -/

namespace WrittenNumber

/-- A rational number in writing: the denominator is left out if it is one. -/
def printed (q : ℚ) : WrittenNumber :=
  ⟨if q < 0 then some .minus else none, .ofNat q.num.natAbs,
    if q.den = 1 then none else some (.ofNat q.den)⟩

theorem sign_printed (q : ℚ) :
    q < 0 ∧ (printed q).sign = some .minus ∨ 0 ≤ q ∧ (printed q).sign = none := by
  by_cases h : q < 0
  · exact .inl ⟨h, if_pos h⟩
  · exact .inr ⟨not_lt.mp h, if_neg h⟩

theorem denominator_printed (q : ℚ) :
    q.den = 1 ∧ (printed q).denominator = none ∨
      q.den ≠ 1 ∧ (printed q).denominator = some (.ofNat q.den) := by
  by_cases h : q.den = 1
  · exact .inl ⟨h, if_pos h⟩
  · exact .inr ⟨h, if_neg h⟩

theorem printed_proper (q : ℚ) : (printed q).Proper where
  numerator := Numeral.ofNat_proper _
  denominator d hd := by
    rcases denominator_printed q with ⟨-, h⟩ | ⟨-, h⟩
    · exact nomatch h.symm.trans hd
    · obtain rfl := Option.some.inj (h.symm.trans hd)
      exact Numeral.ofNat_proper _

theorem chars_printed (q : ℚ) : (printed q).chars = ratDigits q := by
  have hnumerator :
      signChars (printed q).sign ++ (printed q).numerator.chars = intDigits q.num := by
    rcases sign_printed q with ⟨h, hsign⟩ | ⟨h, hsign⟩
    · rw [hsign, intDigits, if_pos (Rat.num_neg.mpr h)]
      rfl
    · rw [hsign, intDigits, if_neg (mt Rat.num_neg.mp h.not_gt)]
      rfl
  rw [WrittenNumber.chars, ← List.append_assoc, hnumerator, ratDigits]
  rcases denominator_printed q with ⟨h, hdenominator⟩ | ⟨h, hdenominator⟩
  · rw [hdenominator, if_pos h]
    exact List.append_nil _
  · rw [hdenominator, if_neg h]
    rfl

theorem divisor_printed (q : ℚ) : (printed q).divisor = q.den := by
  rcases denominator_printed q with ⟨h, hdenominator⟩ | ⟨h, hdenominator⟩
  · rw [divisor, hdenominator, h]
    exact Nat.cast_one.symm
  · rw [divisor, hdenominator, Option.elim_some, ← Numeral.value_eq, Numeral.value_ofNat]

theorem dividend_printed (q : ℚ) : (printed q).dividend = q.num := by
  have hsize : (printed q).numerator.decimalValue = |(q.num : ℚ)| := by
    rw [← Numeral.value_eq, printed, Numeral.value_ofNat, Nat.cast_natAbs, Int.cast_abs]
  rw [dividend, hsize]
  rcases sign_printed q with ⟨h, hsign⟩ | ⟨h, hsign⟩
  · rw [hsign, if_pos rfl, abs_of_neg (Int.cast_lt_zero.mpr (Rat.num_neg.mpr h)), neg_neg]
  · rw [hsign, if_neg nofun, abs_of_nonneg (Int.cast_nonneg (Rat.num_nonneg.mpr h))]

theorem value_printed (q : ℚ) : (printed q).value = q := by
  rw [value, dividend_printed, divisor_printed, Rat.num_div_den]

theorem printed_spells (q : ℚ) : (printed q).Spells (ratDigits q) :=
  ⟨printed_proper q, [], [], nofun, nofun, by rw [chars_printed, List.nil_append, List.append_nil]⟩

end WrittenNumber

/-! ## Numbers of texts -/

namespace Num

variable {source : String} {w : WrittenNumber}

/-- A written number is built, or a division by zero is reported. -/
theorem parse_of_spells (h : w.Spells source.toList) (s : Supply) :
    (w.divisor = 0 → (parse source s).1 =
      .error (.divisionByZero (w.dividend * 10 ^ w.places))) ∧
    (w.divisor ≠ 0 → ∃ n t, parse source s = (.ok n, t) ∧ n.value = w.value) := by
  have hparse : parse source = ofFraction w.scaledDividend w.scaledDivisor := by
    rw [parse, read?_of_spells h]
  rw [hparse, ofFraction_eq, scaledDividend_div]
  refine ⟨fun hzero => ?_, fun hdivisor => ?_⟩
  · rw [if_pos ((scaledDivisor_eq_zero_iff w).mpr hzero), ← scaledDividend_eq]
    rfl
  · rw [if_neg (mt (scaledDivisor_eq_zero_iff w).mp hdivisor)]
    exact ⟨⟨.ofRat w.value, s.label s.next⟩, { s with next := s.next + 1 }, rfl,
      Ratio.toRat_ofRat _⟩

theorem parse_of_not_spells (h : ¬ ∃ w : WrittenNumber, w.Spells source.toList) (s : Supply) :
    (parse source s).1 = .error (.text (.malformedNumber source)) := by
  have hread : read? source.toList = none := not_not.mp fun hne => h (exists_spells hne)
  rw [parse, hread]
  rfl

/-- A text writes a number with a divisor that is not zero, a quotient by zero, or no number. -/
theorem parse_cases (source : String) (s : Supply) :
    (∃ w : WrittenNumber, w.Spells source.toList ∧ w.divisor ≠ 0 ∧
      ∃ n t, parse source s = (.ok n, t) ∧ n.value = w.value) ∨
    (∃ w : WrittenNumber, w.Spells source.toList ∧ w.divisor = 0 ∧
      (parse source s).1 = .error (.divisionByZero (w.dividend * 10 ^ w.places))) ∨
    (¬ ∃ w : WrittenNumber, w.Spells source.toList) ∧
      (parse source s).1 = .error (.text (.malformedNumber source)) := by
  by_cases h : ∃ w : WrittenNumber, w.Spells source.toList
  · obtain ⟨w, hw⟩ := h
    by_cases hzero : w.divisor = 0
    · exact .inr (.inl ⟨w, hw, hzero, (parse_of_spells hw s).1 hzero⟩)
    · exact .inl ⟨w, hw, hzero, (parse_of_spells hw s).2 hzero⟩
  · exact .inr (.inr ⟨h, parse_of_not_spells h s⟩)

/-- A printed number is read as the number that it is. -/
theorem parse_printed (r : Num) (s : Supply) :
    ∃ n t, parse (Expr.num r).text s = (.ok n, t) ∧ (Expr.num n == .num r) = true := by
  have htext : (Expr.num r).text.toList = ratDigits r.value := String.toList_ofList
  have hspells : (printed r.value).Spells (Expr.num r).text.toList := by
    rw [htext]
    exact printed_spells r.value
  have hdivisor : (printed r.value).divisor ≠ 0 := by
    rw [divisor_printed]
    exact Nat.cast_ne_zero.mpr r.value.den_nz
  obtain ⟨n, t, hn, hvalue⟩ := (parse_of_spells hspells s).2 hdivisor
  exact ⟨n, t, hn, Expr.num_eq_iff.mpr (hvalue.trans (value_printed _))⟩

/-- **Exactly the written numbers are read as numbers.**  A number is built from a text with the
value that the text denotes: the text is, but for blanks at its ends, a numeral with a sign or none,
or a quotient of two numerals, the first one with a sign or none, and the second one not zero.  A
quotient by zero is a division of an integer by zero, and every other text is malformed.  A printed
number is read as the number that it is. -/
theorem parse_exactly (s : Supply) :
    (∀ source : String,
      (∀ q, (∃ n t, parse source s = (.ok n, t) ∧ n.value = q) ↔
        ∃ w : WrittenNumber, w.Spells source.toList ∧ w.divisor ≠ 0 ∧ w.value = q) ∧
      (∀ p, (parse source s).1 = .error (.divisionByZero p) ↔
        ∃ w : WrittenNumber, w.Spells source.toList ∧ w.divisor = 0 ∧
          w.dividend * 10 ^ w.places = p) ∧
      ((parse source s).1 = .error (.text (.malformedNumber source)) ↔
        ¬ ∃ w : WrittenNumber, w.Spells source.toList)) ∧
    ∀ r : Num, ∃ n t, parse (Expr.num r).text s = (.ok n, t) ∧ (Expr.num n == .num r) = true := by
  refine ⟨fun source => ⟨fun q => ⟨?_, ?_⟩, fun p => ⟨?_, ?_⟩, ?_, ?_⟩, fun r => ?_⟩
  · rintro ⟨n, t, hparse, rfl⟩
    rcases parse_cases source s with ⟨w, hw, hdivisor, m, u, hm, hvalue⟩ | ⟨w, -, -, hfault⟩ |
      ⟨-, hfault⟩
    · obtain rfl := Except.ok.inj (Prod.mk.inj (hparse.symm.trans hm)).1
      exact ⟨w, hw, hdivisor, hvalue.symm⟩
    · exact nomatch (congrArg Prod.fst hparse).symm.trans hfault
    · exact nomatch (congrArg Prod.fst hparse).symm.trans hfault
  · rintro ⟨w, hw, hdivisor, rfl⟩
    exact (parse_of_spells hw s).2 hdivisor
  · intro hp
    rcases parse_cases source s with ⟨w, -, -, m, u, hm, -⟩ | ⟨w, hw, hzero, hfault⟩ |
      ⟨-, hfault⟩
    · exact nomatch (congrArg Prod.fst hm).symm.trans hp
    · exact ⟨w, hw, hzero, Fault.divisionByZero.inj (Except.error.inj (hfault.symm.trans hp))⟩
    · exact nomatch hfault.symm.trans hp
  · rintro ⟨w, hw, hzero, rfl⟩
    exact (parse_of_spells hw s).1 hzero
  · intro hp
    rcases parse_cases source s with ⟨w, -, -, m, u, hm, -⟩ | ⟨w, -, -, hfault⟩ | ⟨hnone, -⟩
    · exact nomatch (congrArg Prod.fst hm).symm.trans hp
    · exact nomatch hfault.symm.trans hp
    · exact hnone
  · exact fun hnone => parse_of_not_spells hnone s
  · exact parse_printed r s

end Num

end ExactAlgebra
