import ExactAlgebra.Proofs.Ages
import ExactAlgebra.Proofs.Canonical.Obtainable
import ExactAlgebra.Proofs.Canonical.Parts
import ExactAlgebra.Proofs.Numerals
import ExactAlgebra.Proofs.Printed.Names

/-!
# The function form determines the expression

A function form can be read from left to right without looking back.  Its first two characters tell
the kind of the node: a variable is a single letter, which a closing mark follows, and the names of
nodes differ in their second letters.  A number ends where a closing mark stands, and every part of
a node is followed by one.

* `Closing`: what may follow a part.
* `Decodes`: two forms, each followed by something, are the same text only if they stand for the
  same.
* `Expr.readKind`: the kind of a node, read from a text.
* `Expr.decodes_functionForm`: the function form of a canonical expression, followed by something,
  determines the expression and what follows it.
* `Expr.eq_of_format_function`: expressions with the same function form are equal.
-/

namespace ExactAlgebra

/-! ## Forms that are followed by something -/

/-- The characters that follow the parts of a node. -/
def closingMarks : List Char := [',', ':', '}', ')']

theorem forall_closingMarks {P : Char → Prop} :
    (∀ c ∈ closingMarks, P c) ↔ P ',' ∧ P ':' ∧ P '}' ∧ P ')' := by
  simp only [closingMarks, List.forall_mem_cons, List.not_mem_nil, false_imp_iff, implies_true,
    and_true]

/-- What may follow a part of a node: nothing, or a text that begins with a closing mark. -/
def Closing (rest : List Char) : Prop := ∀ c ∈ rest.head?, c ∈ closingMarks

theorem Closing.nil : Closing [] := nofun

theorem Closing.cons {c : Char} (h : c ∈ closingMarks) (rest : List Char) :
    Closing (c :: rest) := by
  rintro d ⟨⟩
  exact h

/-- However they are followed, the two forms are the same text only under a condition, and if they
are followed by the same. -/
def Decodes (form form' : List Char) (same : Prop) : Prop :=
  ∀ rest rest', Closing rest → Closing rest' → form ++ rest = form' ++ rest' → same ∧ rest = rest'

section Words

variable {form form' : List Char} {P Q : Prop}

theorem Decodes.imp (h : Decodes form form' P) (hPQ : P → Q) : Decodes form form' Q :=
  fun rest rest' hr hr' heq => (h rest rest' hr hr' heq).imp_left hPQ

/-- A form without closing marks is what stands before the first closing mark. -/
theorem takeWhile_append_closing (h : ∀ c ∈ form, c ∉ closingMarks) {rest : List Char}
    (hr : Closing rest) : (form ++ rest).takeWhile (· ∉ closingMarks) = form := by
  rw [List.takeWhile_append_of_pos fun c hc => decide_eq_true (h c hc)]
  cases rest with
  | nil => exact List.append_nil form
  | cons c rest =>
    rw [List.takeWhile_cons_of_neg (by simpa using hr c rfl), List.append_nil]

theorem Decodes.word (h : ∀ c ∈ form, c ∉ closingMarks) (h' : ∀ c ∈ form', c ∉ closingMarks) :
    Decodes form form' (form = form') := by
  intro rest rest' hr hr' heq
  obtain rfl : form = form' := by
    rw [← takeWhile_append_closing h hr, heq, takeWhile_append_closing h' hr']
  exact ⟨rfl, List.append_cancel_left heq⟩

end Words

/-! ## Numbers -/

theorem mem_ratDigits {q : ℚ} {c : Char} (h : c ∈ ratDigits q) :
    c.isDigit = true ∨ c = '-' ∨ c = '/' := by
  have hnat {n : ℕ} (h : c ∈ natDigits n) : c.isDigit = true :=
    Nat.isDigit_of_mem_toDigits (by decide) (by decide) h
  have hint (h : c ∈ intDigits q.num) : c.isDigit = true ∨ c = '-' := by
    rw [intDigits] at h
    split at h
    · exact (List.mem_cons.mp h).symm.imp hnat id
    · exact .inl (hnat h)
  rw [ratDigits] at h
  split at h
  · exact (hint h).imp_right .inl
  · rcases List.mem_append.mp h with h | h
    · exact (hint h).imp_right .inl
    · exact (List.mem_cons.mp h).symm.imp hnat .inr

theorem isLetter_of_mem_ratDigits {q : ℚ} {c : Char} (h : c ∈ ratDigits q) :
    Text.isLetter c = false := by
  rcases mem_ratDigits h with hc | rfl | rfl
  · exact Text.isLetter_of_isDigit hc
  · decide
  · decide

theorem isLetter_of_mem_closingMarks : ∀ c ∈ closingMarks, Text.isLetter c = false :=
  forall_closingMarks.mpr ⟨by decide, by decide, by decide, by decide⟩

theorem not_mem_closingMarks_of_ratDigits {q : ℚ} : ∀ c ∈ ratDigits q, c ∉ closingMarks := by
  intro c h hmark
  have hall : ∀ d ∈ closingMarks, ¬ (d.isDigit = true ∨ d = '-' ∨ d = '/') :=
    forall_closingMarks.mpr (by decide)
  exact hall c hmark (mem_ratDigits h)

/-- Numbers are written differently. -/
theorem ratDigits_injective {q q' : ℚ} (h : ratDigits q = ratDigits q') : q = q' := by
  have hread (q : ℚ) := WrittenNumber.read?_of_spells (WrittenNumber.printed_spells q)
  have hscaled := Prod.mk.inj (Option.some.inj ((hread q).symm.trans (h ▸ hread q')))
  rw [← WrittenNumber.value_printed q, ← WrittenNumber.value_printed q',
    ← WrittenNumber.scaledDividend_div, ← WrittenNumber.scaledDividend_div, hscaled.1, hscaled.2]

theorem decodes_ratDigits (q q' : ℚ) : Decodes (ratDigits q) (ratDigits q') (q = q') :=
  (Decodes.word not_mem_closingMarks_of_ratDigits not_mem_closingMarks_of_ratDigits).imp
    ratDigits_injective

namespace Expr

/-! ## Entries -/

section Entries

variable {key value key' value' : List Char} {P Q : Prop}

/-- Since an entry stands in braces, anything may follow it. -/
theorem decodes_entryForm (hk : Decodes key key' P) (hv : Decodes value value' Q)
    {rest rest' : List Char}
    (h : entryForm key value ++ rest = entryForm key' value' ++ rest') :
    (P ∧ Q) ∧ rest = rest' := by
  simp only [entryForm, List.cons_append, List.nil_append, List.append_assoc, List.cons.injEq,
    true_and] at h
  obtain ⟨hkey, h⟩ := hk _ _ (.cons (by decide) _) (.cons (by decide) _) h
  simp only [List.cons.injEq, true_and] at h
  obtain ⟨hvalue, h⟩ := hv _ _ (.cons (by decide) _) (.cons (by decide) _) h
  exact ⟨⟨hkey, hvalue⟩, List.tail_eq_of_cons_eq h⟩

theorem commaSeparated_cons (form : List Char) (forms : List (List Char)) :
    commaSeparated (form :: forms) = form ++ forms.flatMap fun f => ',' :: ' ' :: f := by
  induction forms generalizing form with
  | nil => exact (List.append_nil form).symm
  | cons f forms ih =>
    rw [commaSeparated, ih, List.flatMap_cons, List.append_assoc]
    · rfl
    · exact nofun

variable {α β γ : Type} {keyForm valueForm : α → List Char} {f : α → β} {g : α → γ} {l l' : List α}
  {rest rest' : List Char}

/-- Entries with commas before them are told apart one by one, up to the bracket that closes the
node. -/
theorem decodes_followers
    (hk : ∀ p ∈ l, ∀ q ∈ l', Decodes (keyForm p) (keyForm q) (f p = f q))
    (hv : ∀ p ∈ l, ∀ q ∈ l', Decodes (valueForm p) (valueForm q) (g p = g q))
    (h : (l.map fun p => entryForm (keyForm p) (valueForm p)).flatMap (fun x => ',' :: ' ' :: x) ++
        ')' :: rest =
      (l'.map fun p => entryForm (keyForm p) (valueForm p)).flatMap (fun x => ',' :: ' ' :: x) ++
        ')' :: rest') :
    l.map (fun p => (f p, g p)) = l'.map (fun p => (f p, g p)) ∧ rest = rest' := by
  induction l generalizing l' with
  | nil =>
    cases l' with
    | nil => exact ⟨rfl, List.tail_eq_of_cons_eq h⟩
    | cons q l' => exact absurd (List.head_eq_of_cons_eq h) (by decide)
  | cons p l ih =>
    cases l' with
    | nil => exact absurd (List.head_eq_of_cons_eq h) (by decide)
    | cons q l' =>
      simp only [List.map_cons, List.flatMap_cons, List.cons_append, List.append_assoc,
        List.cons.injEq, true_and] at h
      obtain ⟨⟨hkey, hvalue⟩, h⟩ := decodes_entryForm (hk p List.mem_cons_self q List.mem_cons_self)
        (hv p List.mem_cons_self q List.mem_cons_self) h
      obtain ⟨hmap, hrest⟩ := ih (fun p hp q hq => hk p (.tail _ hp) q (.tail _ hq))
        (fun p hp q hq => hv p (.tail _ hp) q (.tail _ hq)) h
      exact ⟨by rw [List.map_cons, List.map_cons, hkey, hvalue, hmap], hrest⟩

/-- The entries of a node are told apart. -/
theorem decodes_entries
    (hk : ∀ p ∈ l, ∀ q ∈ l', Decodes (keyForm p) (keyForm q) (f p = f q))
    (hv : ∀ p ∈ l, ∀ q ∈ l', Decodes (valueForm p) (valueForm q) (g p = g q))
    (h : commaSeparated (l.map fun p => entryForm (keyForm p) (valueForm p)) ++ ')' :: rest =
      commaSeparated (l'.map fun p => entryForm (keyForm p) (valueForm p)) ++ ')' :: rest') :
    l.map (fun p => (f p, g p)) = l'.map (fun p => (f p, g p)) ∧ rest = rest' := by
  cases l with
  | nil =>
    cases l' with
    | nil => exact ⟨rfl, List.tail_eq_of_cons_eq h⟩
    | cons q l' =>
      rw [List.map_cons, commaSeparated_cons] at h
      exact absurd (List.head_eq_of_cons_eq h) (by decide)
  | cons p l =>
    cases l' with
    | nil =>
      rw [List.map_cons, commaSeparated_cons] at h
      exact absurd (List.head_eq_of_cons_eq h) (by decide)
    | cons q l' =>
      -- With a comma before the first entry, too, the entries are all alike.
      rw [List.map_cons, List.map_cons, commaSeparated_cons, commaSeparated_cons] at h
      refine decodes_followers hk hv ?_
      rw [List.map_cons, List.map_cons, List.flatMap_cons, List.flatMap_cons]
      exact congrArg (fun x => ',' :: ' ' :: x) h

end Entries

/-! ## Kinds -/

/-- The kind of a node, read from what follows its first letter. -/
def readNode : List Char → String
  | 'o' :: _ => "Power"
  | 'r' :: _ => "Product"
  | 'u' :: _ => "Sum"
  | _ => "Variable"

/-- The kind of a node, read from its function form and what follows. -/
def readKind : List Char → String
  | [] => "Rational"
  | c :: rest => if Text.isLetter c then readNode rest else "Rational"

theorem readNode_of_closing {rest : List Char} (h : Closing rest) : readNode rest = "Variable" := by
  cases rest with
  | nil => rfl
  | cons d rest =>
    have hall : ∀ c ∈ closingMarks, readNode (c :: rest) = "Variable" :=
      forall_closingMarks.mpr ⟨rfl, rfl, rfl, rfl⟩
    exact hall d (h d rfl)

theorem readKind_ratDigits (q : ℚ) {rest : List Char} (h : Closing rest) :
    readKind (ratDigits q ++ rest) = "Rational" := by
  have hhead : ∀ c ∈ (ratDigits q ++ rest).head?, Text.isLetter c = false := by
    intro c hc
    cases hdigits : ratDigits q with
    | nil =>
      rw [hdigits] at hc
      exact isLetter_of_mem_closingMarks c (h c hc)
    | cons d digits =>
      rw [hdigits] at hc
      obtain rfl := Option.some.inj hc
      exact isLetter_of_mem_ratDigits (hdigits ▸ List.mem_cons_self)
  cases htext : ratDigits q ++ rest with
  | nil => rfl
  | cons c text =>
    rw [htext] at hhead
    rw [readKind, hhead c rfl, if_neg Bool.false_ne_true]

theorem readKind_letter {c : Char} (h : Text.isLetter c = true) (rest : List Char) :
    readKind (c :: rest) = readNode rest := by rw [readKind, if_pos h]

theorem readKind_functionForm {e : Expr} (hl : e.Lettered) {rest : List Char} (hr : Closing rest) :
    readKind (e.functionForm ++ rest) = e.kind := by
  cases e with
  | num n =>
    unfold functionForm kind
    exact readKind_ratDigits n.value hr
  | var name =>
    obtain ⟨c, hc, rfl⟩ := hl name (by rw [names]; exact List.mem_singleton_self _)
    unfold functionForm kind
    rw [String.toList_singleton, List.singleton_append, readKind_letter hc, readNode_of_closing hr]
  | power age b e =>
    unfold functionForm kind
    exact readKind_letter (c := 'P') (by decide) _
  | product age c factors =>
    unfold functionForm kind
    exact readKind_letter (c := 'P') (by decide) _
  | sum age c summands =>
    unfold functionForm kind
    exact readKind_letter (c := 'S') (by decide) _

/-! ## Products and sums -/

theorem factorForms_eq (factors : List (Expr × Expr)) : factorForms factors =
    factors.map fun p => entryForm p.1.functionForm p.2.functionForm := by
  induction factors with
  | nil => rfl
  | cons p factors ih => rw [factorForms, ih, List.map_cons]

theorem summandForms_eq (summands : List (Expr × Num)) : summandForms summands =
    summands.map fun p => entryForm p.1.functionForm (ratDigits p.2.value) := by
  induction summands with
  | nil => rfl
  | cons p summands ih => rw [summandForms, ih, List.map_cons]

/-- The constant of a sum is written as an entry for the number one. -/
theorem sumTermForms_eq (c : Num) (summands : List (Expr × Num)) :
    (summandForms summands ++ if c.isZero then [] else [entryForm ['1'] (ratDigits c.value)]) =
      (sumTerms c summands).map fun p => entryForm p.1.functionForm (ratDigits p.2.value) := by
  have hone : Expr.one.functionForm = ['1'] := by
    unfold one functionForm
    decide
  rw [summandForms_eq, sumTerms]
  split
  · rw [List.append_nil]
  · rw [List.map_append, List.map_singleton, hone]

/-- What the entries of a sum are up to equality. -/
def summandClass (p : Expr × Num) : ℕ × ℚ := (p.1.fingerprint, p.2.value)

/-- No term of a sum is taken for the one that stands for the constant. -/
theorem one_not_mem_summandClass {summands : List (Expr × Num)}
    (h : ∀ p ∈ summands, p.1.isNum = false) (c : Num) :
    summandClass (.one, c) ∉ summands.map summandClass := by
  intro hmem
  obtain ⟨p, hp, hclass⟩ := List.mem_map.mp hmem
  have heq : (p.1 == .one) = true := eq_iff.mpr (congrArg Prod.fst hclass)
  have hnum : p.1.isNum = true := isNum_congr heq
  rw [h p hp] at hnum
  exact nomatch hnum

/-- The entries of a sum, the constant included, determine the constant and the other entries. -/
theorem sumTerms_injective {c c' : Num} {summands others : List (Expr × Num)}
    (h : ∀ p ∈ summands, p.1.isNum = false) (h' : ∀ p ∈ others, p.1.isNum = false)
    (heq : (sumTerms c summands).map summandClass = (sumTerms c' others).map summandClass) :
    c.value = c'.value ∧ summands.map summandClass = others.map summandClass := by
  rw [sumTerms, sumTerms] at heq
  split at heq
  next hc =>
    split at heq
    next hc' => exact ⟨(Num.isZero_iff.mp hc).trans (Num.isZero_iff.mp hc').symm, heq⟩
    next =>
      rw [List.map_append] at heq
      exact absurd (heq ▸ List.mem_append_right _ List.mem_cons_self)
        (one_not_mem_summandClass h c')
  next =>
    split at heq
    next =>
      rw [List.map_append] at heq
      exact absurd (heq ▸ List.mem_append_right _ List.mem_cons_self)
        (one_not_mem_summandClass h' c)
    next =>
      rw [List.map_append, List.map_append] at heq
      obtain ⟨hentries, hconstant⟩ := List.append_inj' heq rfl
      exact ⟨congrArg Prod.snd (List.head_eq_of_cons_eq hconstant), hentries⟩

/-! ## Nodes -/

/-- Forms that may be the same text are of nodes of the same kind. -/
theorem decodes_of_kind {a b : Expr} {P : Prop} (ha : a.Lettered) (hb : b.Lettered)
    (h : a.kind = b.kind → Decodes a.functionForm b.functionForm P) :
    Decodes a.functionForm b.functionForm P := by
  intro rest rest' hr hr' heq
  have hkind : a.kind = b.kind := by
    rw [← readKind_functionForm ha hr, heq, readKind_functionForm hb hr']
  exact h hkind rest rest' hr hr' heq

section Nodes

variable {age age' : Nat} {b b' e e' : Expr} {c c' : Num} {P Q : Prop}

theorem decodes_num : Decodes (num c).functionForm (num c').functionForm (c.value = c'.value) := by
  unfold functionForm
  exact decodes_ratDigits c.value c'.value

theorem decodes_var {name name' : String} (h : (var name).Lettered) (h' : (var name').Lettered) :
    Decodes (var name).functionForm (var name').functionForm (name = name') := by
  have hletter {name : String} (h : (var name).Lettered) : ∀ c ∈ name.toList, c ∉ closingMarks := by
    obtain ⟨c, hc, rfl⟩ := h name (by rw [names]; exact List.mem_singleton_self _)
    rw [String.toList_singleton, List.forall_mem_singleton]
    intro hmark
    rw [isLetter_of_mem_closingMarks c hmark] at hc
    exact nomatch hc
  unfold functionForm
  exact (Decodes.word (hletter h) (hletter h')).imp String.toList_inj.mp

theorem decodes_power (hb : Decodes b.functionForm b'.functionForm P)
    (he : Decodes e.functionForm e'.functionForm Q) :
    Decodes (power age b e).functionForm (power age' b' e').functionForm (P ∧ Q) := by
  unfold functionForm
  intro rest rest' _ _ h
  simp only [List.append_assoc, List.append_cancel_left_eq, List.cons_append, List.nil_append] at h
  obtain ⟨hbase, h⟩ := hb _ _ (.cons (by decide) _) (.cons (by decide) _) h
  simp only [List.cons.injEq, true_and] at h
  obtain ⟨hexponent, h⟩ := he _ _ (.cons (by decide) _) (.cons (by decide) _) h
  exact ⟨⟨hbase, hexponent⟩, List.tail_eq_of_cons_eq h⟩

theorem decodes_product {factors others : List (Expr × Expr)}
    (hb : ∀ p ∈ factors, ∀ q ∈ others,
      Decodes p.1.functionForm q.1.functionForm (p.1.fingerprint = q.1.fingerprint))
    (he : ∀ p ∈ factors, ∀ q ∈ others,
      Decodes p.2.functionForm q.2.functionForm (p.2.fingerprint = q.2.fingerprint)) :
    Decodes (product age c factors).functionForm (product age' c' others).functionForm
      (c.value = c'.value ∧ factorsFingerprint factors = factorsFingerprint others) := by
  unfold functionForm
  intro rest rest' _ _ h
  simp only [List.append_assoc, List.append_cancel_left_eq, List.cons_append, List.nil_append] at h
  obtain ⟨hvalue, h⟩ := decodes_ratDigits c.value c'.value _ _ (.cons (by decide) _)
    (.cons (by decide) _) h
  simp only [List.cons.injEq, true_and, factorForms_eq] at h
  obtain ⟨hentries, hrest⟩ := decodes_entries hb he h
  exact ⟨⟨hvalue, by rw [factorsFingerprint_eq, factorsFingerprint_eq, hentries]⟩, hrest⟩

theorem decodes_sum {summands others : List (Expr × Num)}
    (hs : ∀ p ∈ summands, p.1.isNum = false) (ho : ∀ p ∈ others, p.1.isNum = false)
    (ht : ∀ p ∈ sumTerms c summands, ∀ q ∈ sumTerms c' others,
      Decodes p.1.functionForm q.1.functionForm (p.1.fingerprint = q.1.fingerprint)) :
    Decodes (sum age c summands).functionForm (sum age' c' others).functionForm
      (c.value = c'.value ∧ summandsFingerprint summands = summandsFingerprint others) := by
  unfold functionForm
  intro rest rest' _ _ h
  simp only [List.append_assoc, List.append_cancel_left_eq, List.cons_append, List.nil_append,
    sumTermForms_eq] at h
  obtain ⟨hterms, hrest⟩ := decodes_entries ht
    (fun p _ q _ => decodes_ratDigits p.2.value q.2.value) h
  obtain ⟨hconstant, hentries⟩ := sumTerms_injective hs ho hterms
  refine ⟨⟨hconstant, ?_⟩, hrest⟩
  rw [summandsFingerprint_eq, summandsFingerprint_eq]
  exact congrArg _ hentries

end Nodes

/-! ## Expressions -/

/-- The function form of a number determines it. -/
theorem decodes_functionForm_num (n : Num) {b : Expr} (hl : b.Lettered) :
    Decodes (num n).functionForm b.functionForm ((num n).fingerprint = b.fingerprint) := by
  refine decodes_of_kind (.num n) hl fun hkind => ?_
  cases b with
  | num m => exact decodes_num.imp fun hvalue => by rw [fingerprint, fingerprint, hvalue]
  | _ => simp [kind] at hkind

/-- What holds of the number one and of the terms of a sum holds of the keys of all its entries. -/
theorem forall_sumTerms {P : Expr → Prop} {c : Num} {summands : List (Expr × Num)} (hone : P .one)
    (h : ∀ p ∈ summands, P p.1) : ∀ p ∈ sumTerms c summands, P p.1 := by
  rw [sumTerms]
  split
  · exact h
  · exact List.forall_mem_append.mpr ⟨h, List.forall_mem_singleton.mpr hone⟩

/-- **The function form of a canonical expression determines it**, whatever follows the form. -/
theorem decodes_functionForm {a b : Expr} (ha : a.Canonical) (hb : b.Canonical) (hla : a.Lettered)
    (hlb : b.Lettered) :
    Decodes a.functionForm b.functionForm (a.fingerprint = b.fingerprint) := by
  induction ha generalizing b with
  | num n reduced => exact decodes_functionForm_num n hlb
  | var name =>
    refine decodes_of_kind hla hlb fun hkind => ?_
    cases hb with
    | var name' => exact (decodes_var hla hlb).imp fun hname => by rw [hname]
    | _ => simp [kind] at hkind
  | power age _ _ _ ihb ihe =>
    refine decodes_of_kind hla hlb fun hkind => ?_
    cases hb with
    | power age' hb he _ =>
      refine (decodes_power (ihb hb hla.power.1 hlb.power.1)
        (ihe he hla.power.2 hlb.power.2)).imp fun h => ?_
      rw [fingerprint, fingerprint, h.1, h.2]
    | _ => simp [kind] at hkind
  | product age _ _ _ _ ihb ihe =>
    refine decodes_of_kind hla hlb fun hkind => ?_
    cases hb with
    | product age' _ hb he _ =>
      refine (decodes_product
        (fun p hp q hq => ihb p hp (hb q hq) (hla.product p hp).1 (hlb.product q hq).1)
        (fun p hp q hq => ihe p hp (he q hq) (hla.product p hp).2 (hlb.product q hq).2)).imp
        fun h => ?_
      rw [fingerprint, fingerprint, h.1, h.2]
    | _ => simp [kind] at hkind
  | @sum age c summands _ _ _ form ih =>
    refine decodes_of_kind hla hlb fun hkind => ?_
    cases hb with
    | @sum age' c' others _ ht _ form' =>
      -- The constant stands under the number one, which is no part of the sum: no induction
      -- hypothesis speaks of it.
      have hothers : ∀ q ∈ sumTerms c' others, q.1.Canonical ∧ q.1.Lettered :=
        forall_sumTerms (P := fun t => t.Canonical ∧ t.Lettered) ⟨.one, .num _⟩
          fun q hq => ⟨ht q hq, hlb.sum q hq⟩
      have hterms : ∀ p ∈ sumTerms c summands, ∀ q ∈ sumTerms c' others,
          Decodes p.1.functionForm q.1.functionForm (p.1.fingerprint = q.1.fingerprint) :=
        forall_sumTerms
          (P := fun t => ∀ q ∈ sumTerms c' others,
            Decodes t.functionForm q.1.functionForm (t.fingerprint = q.1.fingerprint))
          (fun q hq => decodes_functionForm_num .one (hothers q hq).2)
          fun p hp q hq => ih p hp (hothers q hq).1 (hla.sum p hp) (hothers q hq).2
      refine (decodes_sum form.term_not_num form'.term_not_num hterms).imp fun h => ?_
      rw [fingerprint, fingerprint, h.1, h.2]
    | _ => simp [kind] at hkind

/-- **Expressions with the same function form are equal**, if all their variables are named by
single letters. -/
theorem eq_of_format_function {a b : Expr} (ha : a.Obtainable) (hb : b.Obtainable)
    (hla : a.Lettered) (hlb : b.Lettered) (h : a.format .function = b.format .function) :
    (a == b) = true := by
  have hforms : a.functionForm ++ [] = b.functionForm ++ [] := by
    rw [List.append_nil, List.append_nil]
    exact String.ofList_inj.mp h
  exact eq_iff.mpr (decodes_functionForm ha.canonical hb.canonical hla hlb [] [] .nil .nil hforms).1

/-- The sum `2 x^P - P + 3`, with a variable whose letter begins the names of two kinds of nodes. -/
def initialSum : Expr :=
  .sum 21 ⟨3, 20⟩ [(.power 15 (.var "x") (.var "P"), ⟨2, 17⟩), (.var "P", ⟨-1, 18⟩)]

/-- The same sum, read with its terms in another order. -/
def initialSumReordered : Expr :=
  .sum 38 ⟨3, 33⟩ [(.power 35 (.var "x") (.var "P"), ⟨2, 37⟩), (.var "P", ⟨-1, 34⟩)]

set_option maxRecDepth 2048 in
/-- The function form of both is `Sum({Power(x, P): 2}, {P: -1}, {1: 3})`, and so they are equal. -/
theorem eq_of_format_function_initial :
    initialSum.format .function = initialSumReordered.format .function ∧
      (initialSum == initialSumReordered) = true := by
  have hparse : (parse 200 "2x^P-P+3" .initial).1 = .ok initialSum := by cbv
  have hparse' : (parse 200 "3-P+2x^P" ⟨22, id, true⟩).1 = .ok initialSumReordered := by cbv
  have hform : initialSum.format .function = initialSumReordered.format .function := by
    have hageless : initialSum.ageless = initialSumReordered.ageless := by cbv
    rw [← format_ageless, hageless, format_ageless]
  exact ⟨hform, eq_of_format_function (.parse hparse) (.parse hparse')
    ((Grammar.parse_lettered _ _).of_fst hparse)
    ((Grammar.parse_lettered _ _).of_fst hparse') hform⟩

end Expr

end ExactAlgebra
