import ExactAlgebra.Proofs.Printed
import ExactAlgebra.Proofs.Written.Words

/-!
# Pieces of printed forms

The printer puts pieces of text side by side.  Each piece spells tokens, in plain text as in TeX,
and pieces that touch spell their tokens one after the other unless two digits meet.

* `Markup.plain`: a printed form as plain text; TeX markup is translated.
* `Spells`: a piece of a printed form spells tokens.
* `Spells.append`: pieces side by side.  `Spells.group`, `Spells.fraction`, `Spells.separator`: the
  pieces that the two styles write in ways of their own.
-/

namespace ExactAlgebra

/-! ## Characters -/

namespace Text

theorem exists_range_of_inRanges {ranges : List (ℕ × ℕ)} {n : ℕ} (h : inRanges ranges n = true) :
    ∃ r ∈ ranges, r.1 ≤ n ∧ n ≤ r.2 := by
  induction ranges with
  | nil => exact nomatch h
  | cons r ranges ih =>
    obtain ⟨low, high⟩ := r
    rw [inRanges] at h
    split at h
    next => exact nomatch h
    next hlow =>
      rcases (Bool.or_eq_true _ _).mp h with hhigh | h
      · exact ⟨_, List.mem_cons_self, not_lt.mp hlow, of_decide_eq_true hhigh⟩
      · obtain ⟨r, hr, hn⟩ := ih h
        exact ⟨r, List.mem_cons_of_mem _ hr, hn⟩

/-- No letter is a blank. -/
theorem isBlank_of_isLetter {c : Char} (h : isLetter c = true) : isBlank c = false := by
  have table : ∀ r ∈ blankRanges, ∀ k < r.2 - r.1 + 1, inRanges letterRanges (r.1 + k) = false := by
    decide +kernel
  by_contra hb
  rw [Bool.not_eq_false] at hb
  obtain ⟨r, hr, hlow, hhigh⟩ := exists_range_of_inRanges hb
  have := table r hr (c.toNat - r.1) (by omega)
  rw [Nat.add_sub_cancel' hlow] at this
  exact nomatch h.symm.trans this

theorem isBlank_of_isDigit {c : Char} (h : c.isDigit = true) : isBlank c = false := by
  have table : ∀ n : Fin 128, (Char.ofNat n).isDigit = true → isBlank (Char.ofNat n) = false := by
    decide +kernel
  exact forall_ascii (P := fun c => c.isDigit = true → isBlank c = false) table
    (toNat_lt_of_isDigit h) h

end Text

/-! ## TeX as plain text -/

namespace Markup

/-- TeX markup and the plain text that stands for it.  A fraction is a quotient in brackets, and
what is raised stands in brackets; a closing brace directly before an opening one is the bar of a
fraction. -/
def replacements : List (List Char × List Char) :=
  [("\\dfrac\x7b".toList, ['(']), ("\x7d\x7b".toList, ['/']), ("^\x7b".toList, ['^', '(']),
   ("\x7d".toList, [')']), ("\\left(".toList, ['(']), ("\\right)".toList, [')']),
   ("\\cdot".toList, ['*'])]

/-- TeX markup as plain text, after `skip` characters that are already translated. -/
def translateFrom : ℕ → List Char → List Char
  | _, [] => []
  | skip + 1, _ :: chars => translateFrom skip chars
  | 0, c :: chars =>
    match replacements.find? fun r => r.1.isPrefixOf (c :: chars) with
    | some r => r.2 ++ translateFrom (r.1.length - 1) chars
    | none => c :: translateFrom 0 chars

/-- A printed form as plain text. -/
def plain (m : Markup) (chars : List Char) : List Char :=
  match m with
  | .text => chars
  | .tex => translateFrom 0 chars

/-- The character stands for itself in TeX. -/
def Ordinary (c : Char) : Prop := c ≠ '\\' ∧ c ≠ '^' ∧ c ≠ '\x7d'

theorem plain_ordinary (m : Markup) {c : Char} (h : Ordinary c) (rest : List Char) :
    m.plain (c :: rest) = c :: m.plain rest := by
  cases m with
  | text => rfl
  | tex =>
    have hnone : (replacements.find? fun r => r.1.isPrefixOf (c :: rest)) = none := by
      obtain ⟨hb, hc, hr⟩ := h
      rw [List.find?_eq_none]
      intro r hr'
      simp only [replacements, List.mem_cons, List.not_mem_nil, or_false] at hr'
      rcases hr' with rfl | rfl | rfl | rfl | rfl | rfl | rfl <;>
        simp [hb.symm, hc.symm, hr.symm]
    rw [plain, translateFrom, hnone]
    rfl

theorem translateFrom_skip (chars rest : List Char) :
    translateFrom chars.length (chars ++ rest) = translateFrom 0 rest := by
  induction chars with
  | nil => rfl
  | cons c chars ih => rw [List.length_cons, List.cons_append, translateFrom, ih]

/-- A piece of markup is replaced. -/
theorem plain_replaced {c : Char} {chars rest : List Char} (replacement : List Char)
    (h : (replacements.find? fun r => r.1.isPrefixOf (c :: (chars ++ rest))) =
      some (c :: chars, replacement)) :
    Markup.tex.plain (c :: (chars ++ rest)) = replacement ++ Markup.tex.plain rest := by
  rw [plain, translateFrom, h]
  exact congrArg _ (translateFrom_skip chars rest)

end Markup

theorem ordinary_of_isLetter {c : Char} (h : Text.isLetter c = true) : Markup.Ordinary c := by
  refine ⟨?_, ?_, ?_⟩ <;> (rintro rfl; exact absurd h (by decide))

theorem ordinary_of_isDigit {c : Char} (h : c.isDigit = true) : Markup.Ordinary c := by
  refine ⟨?_, ?_, ?_⟩ <;> (rintro rfl; exact absurd h (by decide))

theorem Numeral.Proper.not_isBlank {n : Numeral} (h : n.Proper) {c : Char} (hc : c ∈ n.chars) :
    Text.isBlank c = false := by
  rcases h.isDigit_or hc with hd | rfl
  · exact Text.isBlank_of_isDigit hd
  · decide

/-- The numeral of a natural number is properly written. -/
theorem Numeral.ofNat_proper (n : ℕ) : (Numeral.ofNat n).Proper where
  whole _ hc := Nat.isDigit_of_mem_toDigits (by decide) (by decide) hc
  fraction := nofun
  digits := by
    rw [Numeral.ofNat, digits, Option.getD_none, List.append_nil]
    exact Nat.toDigits_ne_nil

/-! ## Pieces -/

open Markup

/-- The piece of a printed form spells the tokens, whatever follows it.  A piece that begins or ends
with a numeral begins or ends with a digit. -/
structure Spells (m : Markup) (form : List Char) (w : List Token) : Prop where
  proper : ∀ t ∈ w, t.Proper
  apart : w.IsChain Token.Apart
  ne_nil : w ≠ []
  form_ne_nil : form ≠ []
  /-- The piece does not make a closing brace before it the bar of a fraction. -/
  begins : form.head? ≠ some '\x7b'
  reads : ∀ rest, rest.head? ≠ some '\x7b' → Text.dropBlanks (m.plain (form ++ rest)) =
    w.flatMap Token.chars ++ Text.dropBlanks (m.plain rest)
  first : ∀ n, w.head? = some (.atom (.number n)) → beginsWithDigit form = true
  last : ∀ n, w.getLast? = some (.atom (.number n)) → endsWithDigit form = true

theorem head?_append_of_ne_nil {α : Type} {l : List α} (h : l ≠ []) (l' : List α) :
    (l ++ l').head? = l.head? := by
  rw [List.head?_append, List.head?_eq_some_head h, Option.some_or]

theorem beginsWithDigit_append {form : List Char} (h : form ≠ []) (form' : List Char) :
    beginsWithDigit (form ++ form') = beginsWithDigit form := by
  rw [beginsWithDigit, head?_append_of_ne_nil h, beginsWithDigit]

theorem endsWithDigit_append {form' : List Char} (h : form' ≠ []) (form : List Char) :
    endsWithDigit (form ++ form') = endsWithDigit form' := by
  rw [endsWithDigit, List.getLast?_append, List.getLast?_eq_some_getLast h, Option.some_or,
    ← List.getLast?_eq_some_getLast h, endsWithDigit]

namespace Spells

variable {m : Markup} {form form' : List Char} {w w' : List Token}

/-- Pieces that touch, unless two digits do. -/
theorem append (h : Spells m form w) (h' : Spells m form' w')
    (hd : (endsWithDigit form && beginsWithDigit form') = false) :
    Spells m (form ++ form') (w ++ w') where
  proper := List.forall_mem_append.mpr ⟨h.proper, h'.proper⟩
  apart := by
    refine h.apart.append h'.apart fun t ht t' ht' n n' hn hn' => ?_
    subst hn hn'
    rw [h.last n ht, h'.first n' ht'] at hd
    exact nomatch hd
  ne_nil := List.append_ne_nil_of_left_ne_nil h.ne_nil _
  form_ne_nil := List.append_ne_nil_of_left_ne_nil h.form_ne_nil _
  begins := by
    rw [head?_append_of_ne_nil h.form_ne_nil]
    exact h.begins
  reads rest hrest := by
    have hbegins : (form' ++ rest).head? ≠ some '\x7b' := by
      rw [head?_append_of_ne_nil h'.form_ne_nil]
      exact h'.begins
    rw [List.append_assoc, h.reads _ hbegins, h'.reads _ hrest, List.flatMap_append,
      List.append_assoc]
  first n hn := by
    rw [head?_append_of_ne_nil h.ne_nil] at hn
    rw [beginsWithDigit_append h.form_ne_nil]
    exact h.first n hn
  last n hn := by
    rw [List.getLast?_append, List.getLast?_eq_some_getLast h'.ne_nil, Option.some_or,
      ← List.getLast?_eq_some_getLast h'.ne_nil] at hn
    rw [endsWithDigit_append h'.form_ne_nil]
    exact h'.last n hn

/-- A piece that spells brackets and operators. -/
theorem of_symbols (hw : w ≠ []) (hs : ∀ t ∈ w, ∀ a, t ≠ .atom a) (hform : form ≠ [])
    (hbegins : form.head? ≠ some '\x7b')
    (hreads : ∀ rest, rest.head? ≠ some '\x7b' → Text.dropBlanks (m.plain (form ++ rest)) =
      w.flatMap Token.chars ++ Text.dropBlanks (m.plain rest)) : Spells m form w where
  proper t ht := by
    cases t with
    | atom a => exact absurd rfl (hs _ ht a)
    | _ => trivial
  apart := by
    refine List.isChain_iff_getElem.mpr fun i hi n n' hn => ?_
    exact absurd hn (hs _ (List.getElem_mem _) _)
  ne_nil := hw
  form_ne_nil := hform
  begins := hbegins
  reads := hreads
  first n hn := absurd rfl (hs _ (List.mem_of_mem_head? hn) _)
  last n hn := absurd rfl (hs _ (List.mem_of_mem_getLast? hn) _)

/-- A symbol that stands for itself. -/
theorem symbol {t : Token} {c : Char} (ht : ∀ a, t ≠ .atom a) (hc : t.chars = [c])
    (hplain : ∀ rest, m.plain (c :: rest) = c :: m.plain rest) (hbrace : c ≠ '\x7b')
    (hblank : Text.isBlank c = false) : Spells m [c] [t] := by
  refine of_symbols (List.cons_ne_nil _ _) (fun t' ht' a => ?_) (List.cons_ne_nil _ _) ?_
    fun rest _ => ?_
  · rw [List.mem_singleton.mp ht']
    exact ht a
  · intro h
    exact hbrace (Option.some.inj h)
  · rw [List.flatMap_singleton, hc, List.singleton_append, hplain, Text.dropBlanks,
      List.filter_cons_of_pos (by rw [hblank]; rfl)]
    rfl

theorem plus : Spells m ['+'] [.operator .plus] :=
  symbol nofun rfl (plain_ordinary m ⟨by decide, by decide, by decide⟩) (by decide) (by decide)

theorem minus : Spells m ['-'] [.operator .minus] :=
  symbol nofun rfl (plain_ordinary m ⟨by decide, by decide, by decide⟩) (by decide) (by decide)

theorem slash : Spells m ['/'] [.operator .over] :=
  symbol nofun rfl (plain_ordinary m ⟨by decide, by decide, by decide⟩) (by decide) (by decide)

/-- A symbol of markup. -/
theorem replaced {c : Char} {chars : List Char} (replacement : List Char) (hw : w ≠ [])
    (hs : ∀ t ∈ w, ∀ a, t ≠ .atom a) (hbegins : c ≠ '\x7b')
    (hfind : ∀ rest, rest.head? ≠ some '\x7b' →
      (replacements.find? fun r => r.1.isPrefixOf (c :: (chars ++ rest))) =
        some (c :: chars, replacement))
    (hr : Text.dropBlanks replacement = w.flatMap Token.chars) : Spells .tex (c :: chars) w := by
  refine of_symbols hw hs (List.cons_ne_nil _ _) ?_ fun rest hrest => ?_
  · intro h
    exact hbegins (Option.some.inj h)
  · rw [List.cons_append, plain_replaced replacement (hfind rest hrest), Text.dropBlanks,
      List.filter_append, ← Text.dropBlanks, hr]
    rfl

/-! ### Brackets and markup -/

theorem separator : Spells m m.separator [.operator .times] := by
  cases m with
  | text => exact symbol nofun rfl (fun _ => rfl) (by decide) (by decide)
  | tex =>
    have hdot : Spells .tex "\\cdot".toList [.operator .times] :=
      replaced ['*'] (List.cons_ne_nil _ _) (by simp) (by decide) (fun _ _ => rfl) rfl
    refine of_symbols (List.cons_ne_nil _ _) (by simp) (by decide) (by decide) fun rest _ => ?_
    -- The blank after the markup is dropped.
    have hblank : Text.dropBlanks (Markup.tex.plain (' ' :: rest)) =
        Text.dropBlanks (Markup.tex.plain rest) := by
      rw [plain_ordinary _ ⟨by decide, by decide, by decide⟩, Text.dropBlanks,
        List.filter_cons_of_neg (by decide), ← Text.dropBlanks]
    rw [← hblank]
    exact hdot.reads (' ' :: rest) (by simp)

theorem openingBrace : Spells .tex "^\x7b".toList [.operator .caret, .opening] :=
  replaced ['^', '('] (List.cons_ne_nil _ _) (by simp) (by decide)
    (fun _ _ => rfl) rfl

theorem closingBrace : Spells .tex ['\x7d'] [.closing] := by
  refine replaced [')'] (List.cons_ne_nil _ _) (by simp) (by decide)
    (fun rest hrest => ?_) rfl
  cases rest with
  | nil => rfl
  | cons c rest =>
    have hc : c ≠ '\x7b' := fun h => hrest (congrArg some h)
    simp [replacements, hc.symm]

/-- A piece in brackets. -/
theorem group (h : Spells m form w) : Spells m (m.group form) (.opening :: (w ++ [.closing])) := by
  cases m with
  | text =>
    have hopening : Spells .text ['('] [.opening] :=
      symbol nofun rfl (fun _ => rfl) (by decide) (by decide)
    have hclosing : Spells .text [')'] [.closing] :=
      symbol nofun rfl (fun _ => rfl) (by decide) (by decide)
    exact hopening.append
      (h.append hclosing (by rw [Bool.and_eq_false_iff]; exact .inr (by decide)))
      (by rw [Bool.and_eq_false_iff]; exact .inl (by decide))
  | tex =>
    have hopening : Spells .tex "\\left(".toList [.opening] :=
      replaced ['('] (List.cons_ne_nil _ _) (by simp) (by decide)
        (fun _ _ => rfl) rfl
    have hclosing : Spells .tex "\\right)".toList [.closing] :=
      replaced [')'] (List.cons_ne_nil _ _) (by simp) (by decide)
        (fun _ _ => rfl) rfl
    have hgroup := hopening.append
      (h.append hclosing (by rw [Bool.and_eq_false_iff]; exact .inr (by decide)))
      (by rw [Bool.and_eq_false_iff]; exact .inl (by decide))
    rwa [← List.append_assoc] at hgroup

/-! ### Atoms -/

theorem plain_digits (m : Markup) {digits : List Char} (h : ∀ c ∈ digits, c.isDigit = true)
    (rest : List Char) : Text.dropBlanks (m.plain (digits ++ rest)) =
      digits ++ Text.dropBlanks (m.plain rest) := by
  induction digits with
  | nil => rfl
  | cons d digits ih =>
    rw [List.forall_mem_cons] at h
    rw [List.cons_append, plain_ordinary m (ordinary_of_isDigit h.1), Text.dropBlanks,
      List.filter_cons_of_pos (by rw [Text.isBlank_of_isDigit h.1]; rfl), ← Text.dropBlanks, ih h.2]
    rfl

theorem natural (n : ℕ) : Spells m (natDigits n) [.atom (.number (.ofNat n))] := by
  have hproper := Numeral.ofNat_proper n
  have hdigits : ∀ c ∈ natDigits n, c.isDigit = true := hproper.whole
  have hne : natDigits n ≠ [] := hproper.chars_ne_nil
  refine ⟨List.forall_mem_singleton.mpr hproper, List.isChain_singleton _, List.cons_ne_nil _ _,
    hne, ?_, fun rest _ => ?_, fun _ _ => ?_, fun _ _ => ?_⟩
  · intro h
    exact absurd (hdigits _ (List.mem_of_mem_head? h)) (by decide)
  · rw [plain_digits m hdigits, List.flatMap_singleton]
    rfl
  · rw [beginsWithDigit, List.head?_eq_some_head hne]
    exact Text.hasDigitValue_of_isDigit (hdigits _ (List.head_mem hne))
  · rw [endsWithDigit, List.getLast?_eq_some_getLast hne]
    exact Text.hasDigitValue_of_isDigit (hdigits _ (List.getLast_mem hne))

theorem letter {c : Char} (h : Text.isLetter c = true) : Spells m [c] [.atom (.variable c)] := by
  refine ⟨List.forall_mem_singleton.mpr h, List.isChain_singleton _, List.cons_ne_nil _ _,
    List.cons_ne_nil _ _, ?_, fun rest _ => ?_, nofun, nofun⟩
  · intro hc
    obtain rfl := Option.some.inj hc
    exact absurd h (by decide)
  · rw [List.singleton_append, plain_ordinary m (ordinary_of_isLetter h), Text.dropBlanks,
      List.filter_cons_of_pos (by rw [Text.isBlank_of_isLetter h]; rfl)]
    rfl

/-- A fraction in TeX. -/
theorem fraction (n d : ℕ) :
    Spells .tex ("\\dfrac\x7b".toList ++ natDigits n ++ "\x7d\x7b".toList ++ natDigits d ++
      ['\x7d'])
      [.opening, .atom (.number (.ofNat n)), .operator .over, .atom (.number (.ofNat d)),
        .closing] := by
  have hopening : Spells .tex "\\dfrac\x7b".toList [.opening] :=
    replaced ['('] (List.cons_ne_nil _ _) (by simp) (by decide)
      (fun _ _ => rfl) rfl
  have hbar : Spells .tex "\x7d\x7b".toList [.operator .over] :=
    replaced ['/'] (List.cons_ne_nil _ _) (by simp) (by decide)
      (fun _ _ => rfl) rfl
  have hclosing : ∀ form, (endsWithDigit form && beginsWithDigit ['\x7d']) = false := fun form => by
    rw [Bool.and_eq_false_iff]
    exact .inr (by decide)
  have hn := hopening.append (natural n) (by rw [Bool.and_eq_false_iff]; exact .inl (by decide))
  have hnbar := hn.append hbar (by rw [Bool.and_eq_false_iff]; exact .inr (by decide))
  have hd := hnbar.append (natural d) (by
    rw [Bool.and_eq_false_iff, endsWithDigit_append (by decide)]
    exact .inl (by decide))
  exact hd.append closingBrace (hclosing _)

end Spells

end ExactAlgebra
