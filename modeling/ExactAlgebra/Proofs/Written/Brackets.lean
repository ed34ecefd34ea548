import ExactAlgebra.Expr.Operators
import ExactAlgebra.Proofs.Written.Words

/-!
# Texts in brackets

When a text with balanced brackets has tokens, it writes its tree on its own, with no bracket that
is closed at its end.  So it may be put in brackets, with a sign before it or an operator after it,
and nothing in it is joined with what stands around it.

* `Text.Balanced`: as many brackets are closed in a text as are opened.
* `Token.Cut.append`: texts side by side.
* `exists_writes`: what a balanced text with tokens writes.
* `readAs_signed`, `readAs_joined`: what texts in brackets are read as.
-/

namespace ExactAlgebra

namespace Text

/-- As many brackets are closed in the text as are opened in it.  A text that closes a bracket
before it has been opened has no tokens, so that this is all there is to say of a text that has
some. -/
def Balanced (text : List Char) : Prop := text.count '(' = text.count ')'

instance (text : List Char) : Decidable (Balanced text) := inferInstanceAs (Decidable (_ = _))

theorem Balanced.dropBlanks {text : List Char} (h : Balanced text) :
    Balanced (dropBlanks text) := by
  rw [Balanced, Text.dropBlanks, List.count_filter (by decide), List.count_filter (by decide)]
  exact h

theorem dropBlanks_append (text text' : List Char) :
    dropBlanks (text ++ text') = dropBlanks text ++ dropBlanks text' := List.filter_append ..

theorem dropBlanks_cons {c : Char} (h : isBlank c = false) (text : List Char) :
    dropBlanks (c :: text) = c :: dropBlanks text := List.filter_cons_of_pos (by rw [h]; rfl)

theorem isBlank_operator (o : Operator) : isBlank o.char = false := by cases o <;> decide

def bracketed (text : List Char) : List Char := '(' :: (text ++ [')'])

theorem dropBlanks_bracketed (text : List Char) :
    dropBlanks (bracketed text) = bracketed (dropBlanks text) := by
  rw [bracketed, bracketed, dropBlanks_cons (by decide), dropBlanks_append,
    dropBlanks_cons (by decide)]
  rfl

end Text

namespace Arithmetic

def operator : Arithmetic → Operator
  | .add => .plus
  | .subtract => .minus
  | .multiply => .times
  | .divide => .over
  | .power => .caret

end Arithmetic

/-! ## Brackets among tokens -/

namespace Token

/-- Brackets are written by brackets alone. -/
theorem Proper.count_chars {t : Token} (h : t.Proper) :
    t.chars.count '(' = [t].count .opening ∧ t.chars.count ')' = [t].count .closing := by
  have hnone {c : Char} (hc : ∀ c' ∈ t.chars, c' ≠ c) : t.chars.count c = 0 :=
    List.count_eq_zero.mpr fun hmem => hc c hmem rfl
  cases t with
  | atom a =>
    have hplain : ∀ c ∈ (Token.atom a).chars, c ≠ '(' ∧ c ≠ ')' := by
      intro c hc
      cases a with
      | number n =>
        have hn : n.Proper := h
        rcases hn.isDigit_or hc with hd | rfl
        · constructor <;> (rintro rfl; exact absurd hd (by decide))
        · decide
      | «variable» name =>
        obtain rfl := List.mem_singleton.mp hc
        have hl : Text.isLetter c = true := h
        constructor <;> (rintro rfl; exact absurd hl (by decide))
    exact ⟨hnone fun c hc => (hplain c hc).1, hnone fun c hc => (hplain c hc).2⟩
  | opening => decide
  | closing => decide
  | operator o => cases o <;> decide

theorem count_flatMap_chars {raw : List Token} (h : ∀ t ∈ raw, t.Proper) :
    (raw.flatMap chars).count '(' = raw.count .opening ∧
      (raw.flatMap chars).count ')' = raw.count .closing := by
  induction raw with
  | nil => exact ⟨rfl, rfl⟩
  | cons t raw ih =>
    rw [List.forall_mem_cons] at h
    obtain ⟨hopening, hclosing⟩ := h.1.count_chars
    rw [List.flatMap_cons, ← List.singleton_append (x := t), List.count_append, List.count_append,
      List.count_append, List.count_append, hopening, hclosing, (ih h.2).1, (ih h.2).2]
    exact ⟨rfl, rfl⟩

/-! ## Texts side by side -/

/-- Cut texts side by side are cut as they are, unless two numerals meet. -/
theorem Cut.append {text text' : List Char} {raw raw' : List Token} (h : Cut text raw)
    (h' : Cut text' raw') (hapart : ∀ t ∈ raw.getLast?, ∀ t' ∈ raw'.head?, Apart t t') :
    Cut (text ++ text') (raw ++ raw') := by
  have hproper : ∀ t ∈ raw ++ raw', t.Proper := fun t ht =>
    (List.mem_append.mp ht).elim (h.proper t) (h'.proper t)
  have hcut := Cut.of_apart hproper (h.apart.append h'.apart hapart)
  rwa [List.flatMap_append, h.pieces, h'.pieces] at hcut

theorem cut_singleton {t : Token} (h : t.Proper) : Cut t.chars [t] := by
  have hcut := Cut.of_apart (List.forall_mem_singleton.mpr h) (List.isChain_singleton t)
  rwa [List.flatMap_singleton] at hcut

/-- A bracket or an operator stands before the text. -/
theorem Cut.cons {t : Token} {text : List Char} {raw : List Token} (h : Cut text raw)
    (ht : ∀ a, t ≠ .atom a) : Cut (t.chars ++ text) (t :: raw) := by
  refine (cut_singleton ?_).append h ?_
  · cases t with
    | atom a => exact absurd rfl (ht a)
    | _ => trivial
  · rintro _ ⟨⟩ t' - n n' hn
    exact absurd hn (ht _)

theorem Cut.bracketed {text : List Char} {raw : List Token} (h : Cut text raw) :
    Cut (Text.bracketed text) (.opening :: (raw ++ [.closing])) := by
  refine Cut.cons (t := .opening) (h.append (cut_singleton (t := .closing) trivial) ?_) nofun
  rintro t - _ ⟨⟩ n n' - hn
  cases hn

end Token

/-! ## Readings -/

def Arithmetic.joint : Arithmetic → Grammar.Joint
  | .add => .sum .plus []
  | .subtract => .sum .minus []
  | .multiply => .multiply []
  | .divide => .divide []
  | .power => .caret []

namespace Grammar

theorem written_joint (op : Arithmetic) : op.joint.written = [.operator op.operator] := by
  cases op <;> rfl

/-- A balanced text that has tokens writes its tree on its own. -/
theorem exists_writes {source : String} {tokens : List Token} (h : tokenize source = .ok tokens)
    (hb : Text.Balanced source.toList) : ∃ (s : Tree Atom) (raw : List Token),
      Token.Cut (Text.dropBlanks source.toList) raw ∧ Tree.Writes s raw ∧
      Tree.tokens s = tokens := by
  obtain ⟨s, raw, k, hcut, hw, hs, hk⟩ := exists_cut h
  obtain ⟨hopening, hclosing⟩ := Token.count_flatMap_chars hcut.proper
  have hraw := hb.dropBlanks
  rw [Text.Balanced, ← hcut.pieces, hopening, hclosing] at hraw
  obtain rfl : k = 0 := by omega
  rw [List.replicate_zero, List.append_nil] at hw
  exact ⟨s, raw, hcut, hw, hs⟩

theorem group_writes {s : Tree Atom} {raw : List Token} (h : Tree.Writes s raw) :
    (Primary.group s).Writes (.opening :: (raw ++ [.closing])) := by
  rw [Primary.Writes]
  exact ⟨raw, h, rfl⟩

section Readings

variable {text text' : List Char} {raw raw' : List Token} {s s' : Tree Atom}
  (hcut : Token.Cut (Text.dropBlanks text) raw) (hw : Tree.Writes s raw)

include hcut hw

/-- A text in brackets after a run of signs is a group after one sign. -/
theorem readAs_signed (signs : List Sign) :
    ReadAs (signs.map (fun sign => (signOperator sign).char) ++ Text.bracketed text)
      (.term (negative signs) (.factor (.operand (.group s)))) := by
  refine ⟨signTokens signs ++ .opening :: (raw ++ [.closing]), 0, ?_, ?_⟩
  · rw [Text.dropBlanks_append, Text.dropBlanks_bracketed]
    induction signs with
    | nil => exact hcut.bracketed
    | cons sign signs ih =>
      rw [List.map_cons, Text.dropBlanks_cons (Text.isBlank_operator _)]
      exact Token.Cut.cons (t := .operator (signOperator sign)) ih nofun
  · rw [List.replicate_zero, List.append_nil]
    exact start_writes (group_writes hw) signs

/-- Texts in brackets with an operator between them are groups that are joined. -/
theorem readAs_joined (hcut' : Token.Cut (Text.dropBlanks text') raw')
    (hw' : Tree.Writes s' raw') (op : Arithmetic) :
    ReadAs (Text.bracketed text ++ op.operator.char :: Text.bracketed text')
      (Tree.join (.term false (.factor (.operand (.group s)))) op.joint (.group s')) := by
  refine ⟨(.opening :: (raw ++ [.closing])) ++
    ([.operator op.operator] ++ .opening :: (raw' ++ [.closing])), 0, ?_, ?_⟩
  · rw [Text.dropBlanks_append, Text.dropBlanks_bracketed,
      Text.dropBlanks_cons (Text.isBlank_operator _), Text.dropBlanks_bracketed]
    refine hcut.bracketed.append (hcut'.bracketed.cons (t := .operator op.operator) nofun) ?_
    rintro t - t' ht' n n' - hn
    cases ht'
    cases hn
  · rw [List.replicate_zero, List.append_nil, ← written_joint]
    exact join_writes (start_writes (group_writes hw) []) (group_writes hw') op.joint

end Readings

end Grammar

end ExactAlgebra
