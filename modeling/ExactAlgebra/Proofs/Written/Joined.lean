import ExactAlgebra.Proofs.Nesting
import ExactAlgebra.Proofs.Printed.Spelling

/-!
# Texts of tokens

The tokens of a text, written side by side, are a text again.  It has the same tokens: its runs of
signs are folded already, its multiplications are written out and its brackets are closed.  So it is
read as the same tree, and whatever can be worked out from the one text can be worked out from the
other.

* `Token.joined`: the text of some tokens.
* `Grammar.normalFormFrom_apart`: operands in normal form do not touch.
* `Grammar.Tree.writes_tokens`: the normal form of a tree writes the tree.
* `Grammar.ReadAs.joined`: the text of the tokens is read as the same tree.
* `Expr.parse_joined`: it has the same tokens and is parsed to the same result.
-/

namespace ExactAlgebra

def Token.joined (tokens : List Token) : String := String.join (tokens.map Token.text)

theorem Token.toList_joined (tokens : List Token) :
    (Token.joined tokens).toList = tokens.flatMap Token.chars := by
  rw [Token.joined, String.toList_join, List.flatMap_map]
  exact congrArg (List.flatMap · tokens) (funext fun _ => String.toList_ofList)

namespace Grammar

/-! ## Normal forms -/

/-- Before anything that is apart, operators stand apart. -/
theorem isChain_operators {l l' : List Token} (hl : ∀ t ∈ l, ∃ o, t = .operator o)
    (h : l'.IsChain Token.Apart) : (l ++ l').IsChain Token.Apart := by
  induction l with
  | nil => exact h
  | cons t l ih =>
    obtain ⟨⟨o, rfl⟩, hrest⟩ := List.forall_mem_cons.mp hl
    exact List.isChain_cons.mpr ⟨fun _ _ _ _ hn => (nomatch hn), ih hrest⟩

theorem joint_operators (after : Bool) (signs : List Sign) (t : Token) :
    ∀ t' ∈ joint after signs t, ∃ o, t' = .operator o := by
  unfold joint
  intro t' ht'
  split at ht'
  · split at ht'
    · exact ⟨_, List.mem_singleton.mp ht'⟩
    · cases ht'
  · exact ⟨_, List.mem_singleton.mp ht'⟩
  · rw [minusIf] at ht'
    split at ht'
    · exact ⟨_, List.mem_singleton.mp ht'⟩
    · cases ht'

/-- After an operand, what stands before an atom is not empty. -/
theorem joint_atom_ne_nil (signs : List Sign) (a : Atom) : joint true signs (.atom a) ≠ [] := by
  cases signs <;> exact List.cons_ne_nil _ _

/-- In normal form, an operand is not followed by an atom, and so no two numerals stand side by
side. -/
theorem normalFormFrom_apart (after : Bool) (signs : List Sign) (w : List Token) :
    (normalFormFrom after signs w).IsChain Token.Apart ∧
      (after = true → ∀ a, (normalFormFrom after signs w).head? ≠ some (.atom a)) := by
  fun_induction normalFormFrom after signs w with
  | case1 => exact ⟨.nil, fun _ _ => nofun⟩
  | case2 after signs w ih => exact ih
  | case3 after signs w ih => exact ih
  | case4 after signs t w _ _ ih =>
    obtain ⟨hchain, hhead⟩ := ih
    refine ⟨isChain_operators (joint_operators after signs t) ?_, ?_⟩
    · refine List.isChain_cons.mpr ⟨?_, hchain⟩
      rintro t' ht' n n' rfl rfl
      exact hhead rfl _ ht'
    · rintro rfl a ha
      cases hjoint : joint true signs t with
      | nil =>
        rw [hjoint] at ha
        obtain rfl := Option.some.inj ha
        exact joint_atom_ne_nil signs a hjoint
      | cons t' rest =>
        rw [hjoint] at ha
        obtain rfl := Option.some.inj ha
        obtain ⟨o, ho⟩ := joint_operators true signs t _ (hjoint ▸ List.mem_cons_self)
        exact nomatch ho

/-- The atoms of a normal form are those of the word. -/
theorem mem_of_mem_normalFormFrom {after : Bool} {signs : List Sign} {w : List Token} {a : Atom}
    (h : Token.atom a ∈ normalFormFrom after signs w) : Token.atom a ∈ w := by
  fun_induction normalFormFrom after signs w with
  | case1 => exact h
  | case2 after signs w ih => exact List.mem_cons_of_mem _ (ih h)
  | case3 after signs w ih => exact List.mem_cons_of_mem _ (ih h)
  | case4 after signs t w _ _ ih =>
    rcases List.mem_append.mp h with h | h
    · obtain ⟨o, ho⟩ := joint_operators after signs t _ h
      exact nomatch ho
    · rcases List.mem_cons.mp h with h | h
      · exact h ▸ List.mem_cons_self
      · exact List.mem_cons_of_mem _ (ih h)

/-! ## The normal form of a tree writes it -/

/-- The run of signs before an operand in normal form. -/
def minusSigns (negated : Bool) : List Sign := if negated then [.minus] else []

theorem negative_minusSigns (negated : Bool) : negative (minusSigns negated) = negated := by
  cases negated <;> rfl

theorem signTokens_minusSigns (negated : Bool) :
    signTokens (minusSigns negated) = minusIf negated := by
  cases negated <;> rfl

mutual

theorem Primary.writes_tokens (p : Primary Atom) : p.Writes p.tokens := by
  cases p with
  | leaf a => rw [Primary.Writes, Primary.tokens]
  | group s =>
    rw [Primary.Writes, Primary.tokens]
    exact ⟨_, Tree.writes_tokens s, rfl⟩

theorem Factor.writes_tokens (f : Factor (Primary Atom)) : f.Writes f.tokens := by
  cases f with
  | operand p =>
    rw [Factor.Writes, Factor.tokens]
    exact Primary.writes_tokens p
  | power p negated f =>
    rw [Factor.Writes, Factor.tokens, ← signTokens_minusSigns]
    exact ⟨_, _, _, Primary.writes_tokens p, Factor.writes_tokens f, negative_minusSigns negated,
      rfl⟩

theorem Term.writes_tokens (t : Term (Factor (Primary Atom))) : t.Writes t.tokens := by
  cases t with
  | factor f =>
    rw [Term.Writes, Term.tokens]
    exact Factor.writes_tokens f
  | multiply t negated f =>
    rw [Term.Writes, Term.tokens, ← signTokens_minusSigns]
    exact ⟨_, _, Term.writes_tokens t, Factor.writes_tokens f,
      .inl ⟨_, negative_minusSigns negated, rfl⟩⟩
  | divide t negated f =>
    rw [Term.Writes, Term.tokens, ← signTokens_minusSigns]
    exact ⟨_, _, _, Term.writes_tokens t, Factor.writes_tokens f, negative_minusSigns negated, rfl⟩

/-- The normal form of a tree writes the tree. -/
theorem Tree.writes_tokens (s : Tree Atom) : Tree.Writes s (Tree.tokens s) := by
  cases s with
  | term negated t =>
    rw [Tree.Writes, Tree.tokens, ← signTokens_minusSigns]
    exact ⟨_, _, Term.writes_tokens t, negative_minusSigns negated, rfl⟩
  | add s sign t =>
    rw [Tree.Writes, Tree.tokens]
    refine ⟨_, [sign], _, Tree.writes_tokens s, Term.writes_tokens t, List.cons_ne_nil _ _, ?_, rfl⟩
    cases sign <;> rfl

end

/-! ## The text of a normal form -/

end Grammar

/-- No token is written with blanks. -/
theorem Token.Proper.not_isBlank {t : Token} (h : t.Proper) {c : Char} (hc : c ∈ t.chars) :
    Text.isBlank c = false := by
  cases t with
  | atom a =>
    cases a with
    | number n => exact Numeral.Proper.not_isBlank h hc
    | «variable» name =>
      obtain rfl := List.mem_singleton.mp hc
      exact Text.isBlank_of_isLetter h
  | opening =>
    obtain rfl := List.mem_singleton.mp hc
    decide
  | closing =>
    obtain rfl := List.mem_singleton.mp hc
    decide
  | operator o =>
    obtain rfl := List.mem_singleton.mp hc
    exact Text.isBlank_operator o

namespace Grammar

open Passes

theorem dropBlanks_chars {w : List Token} (h : ∀ t ∈ w, t.Proper) :
    Text.dropBlanks (w.flatMap Token.chars) = w.flatMap Token.chars := by
  refine List.filter_eq_self.mpr fun c hc => ?_
  obtain ⟨t, ht, hc⟩ := List.mem_flatMap.mp hc
  rw [(h t ht).not_isBlank hc]
  rfl

/-- The text of the tokens is read as the same tree. -/
theorem ReadAs.joined {text : List Char} {s : Tree Atom} (h : ReadAs text s) :
    ReadAs (Token.joined (Tree.tokens s)).toList s := by
  obtain ⟨raw, k, hcut, hw⟩ := h
  have htokens : normalForm (raw ++ List.replicate k .closing) = Tree.tokens s :=
    normalForm_of_writes hw
  have hproper : ∀ t ∈ Tree.tokens s, t.Proper := by
    intro t ht
    cases t with
    | atom a =>
      rw [← htokens] at ht
      rcases List.mem_append.mp (mem_of_mem_normalFormFrom ht) with h | h
      · exact hcut.proper _ h
      · exact nomatch (List.mem_replicate.mp h).2
    | _ => trivial
  have hapart : (Tree.tokens s).IsChain Token.Apart := by
    rw [← htokens]
    exact (normalFormFrom_apart false [] _).1
  refine ⟨Tree.tokens s, 0, ?_, ?_⟩
  · rw [Token.toList_joined, dropBlanks_chars hproper]
    exact .of_apart hproper hapart
  · rw [List.replicate_zero, List.append_nil]
    exact Tree.writes_tokens s

/-! ## Two texts of one tree -/

/-- The checks of two texts refuse the same, each in its own words. -/
theorem checkLevels_renames (source source' : String) (limit : Int) (levels : Nat) :
    Build.Limits (fun _ => .text (.nesting source' limit))
      (fun i => checkLevels (if i < 1 then source' else source) limit levels)
      (checkLevels source limit levels) := by
  intro σ
  refine ⟨fun i => ?_, 1, fun i hi => by dsimp only; rw [if_neg (by omega)]⟩
  dsimp only [checkLevels]
  by_cases h : limit < levels
  · rw [if_pos h, if_pos h]
    by_cases hi : i < 1
    · left
      rw [if_pos hi]
      rfl
    · right
      rw [if_neg hi]
  · right
    rw [if_neg h, if_neg h]

section Renaming

variable {source source' : String} {s : Tree Atom}

/-- A text is refused, or what is done with it is what is done with another text of the same
tree. -/
theorem parse_renames (h : tokenize source = .ok (Tree.tokens s))
    (h' : tokenize source' = .ok (Tree.tokens s)) (limit : Int) (σ : Supply) :
    (Expr.parse limit source' σ).1 = .error (.text (.nesting source' limit)) ∨
      Expr.parse limit source' σ = Expr.parse limit source σ := by
  rw [parse_eq_actUnder h, parse_eq_actUnder h']
  exact (actUnder_limits (checkLevels_renames source source' limit) s σ).1 0

/-- Of two texts of one tree both are refused, or the same is done with both. -/
theorem parse_same_tree (h : tokenize source = .ok (Tree.tokens s))
    (h' : tokenize source' = .ok (Tree.tokens s)) (limit : Int) (σ : Supply) :
    ((Expr.parse limit source σ).1 = .error (.text (.nesting source limit)) ∧
      (Expr.parse limit source' σ).1 = .error (.text (.nesting source' limit))) ∨
    Expr.parse limit source σ = Expr.parse limit source' σ := by
  rcases parse_renames h h' limit σ with hrefused' | hsame
  · rcases parse_renames h' h limit σ with hrefused | hsame
    · exact .inl ⟨hrefused, hrefused'⟩
    · exact .inr hsame
  · exact .inr hsame.symm

end Renaming

end Grammar

namespace Expr

open Grammar

/-- A fault of the text is the same in every run. -/
theorem SameOutcome.text_fault {fault : TextFault} {x x' : Except Fault Expr}
    (h : SameOutcome x x') (hx : x = .error (.text fault)) : x' = .error (.text fault) := by
  subst hx
  rcases x' with e | r
  · cases e with
    | missingEntry key => exact nomatch (show Fault.text fault = .missingEntry key.ageless from h)
    | _ => exact congrArg Except.error (Eq.symm h)
  · exact h.elim

/-- **The tokens of a text, side by side, are a text with the same tokens and the same meaning.**
Under every limit, and whatever has been built before each time, both texts are refused with the
limit, each in its own words, or parsing them has the same outcome. -/
theorem parse_joined {source : String} {tokens : List Token} (h : tokenize source = .ok tokens) :
    tokenize (Token.joined tokens) = .ok tokens ∧
      ∀ limit s s', s.Valid → s'.Valid →
        ((parse limit source s).1 = .error (.text (.nesting source limit)) ∧
          (parse limit (Token.joined tokens) s').1 =
            .error (.text (.nesting (Token.joined tokens) limit))) ∨
        SameOutcome (parse limit source s).1 (parse limit (Token.joined tokens) s').1 := by
  obtain ⟨t, ht, rfl⟩ := exists_readAs h
  have hjoined := tokenize_of_readAs ht.joined
  refine ⟨hjoined, fun limit s s' hs hs' => ?_⟩
  have hsupplies : SameOutcome (parse limit (Token.joined (Tree.tokens t)) s).1
      (parse limit (Token.joined (Tree.tokens t)) s').1 :=
    .of_couples (parse_couples limit _) (Pairing.below_constants true hs hs')
  rcases parse_same_tree h hjoined limit s with ⟨hrefused, hrefused'⟩ | hsame
  · exact .inl ⟨hrefused, hsupplies.text_fault hrefused'⟩
  · rw [hsame]
    exact .inr hsupplies

/-- Signs are folded, multiplications are written out and a bracket is closed, and the text that
comes of it stays as it is. -/
theorem parse_joined_open_bracket :
    ∃ tokens, tokenize "+-2x--.5(y+3." = .ok tokens ∧
      Token.joined tokens = "-2*x+.5*(y+3.)" ∧
      tokenize "-2*x+.5*(y+3.)" = .ok tokens ∧
      (((parse 1 "+-2x--.5(y+3." .initial).1 = .error (.text (.nesting "+-2x--.5(y+3." 1)) ∧
          (parse 1 "-2*x+.5*(y+3.)" ⟨0, fun k => 100 + 3 * k, true⟩).1 =
            .error (.text (.nesting "-2*x+.5*(y+3.)" 1))) ∨
        SameOutcome (parse 1 "+-2x--.5(y+3." .initial).1
          (parse 1 "-2*x+.5*(y+3.)" ⟨0, fun k => 100 + 3 * k, true⟩).1) := by
  obtain ⟨tokens, htokens, hjoined⟩ : ∃ tokens, tokenize "+-2x--.5(y+3." = .ok tokens ∧
      Token.joined tokens = "-2*x+.5*(y+3.)" := ⟨_, by cbv, by cbv⟩
  have hvalid : Supply.Valid ⟨0, fun k => 100 + 3 * k, true⟩ := by
    refine ⟨fun a b h => ?_, by decide⟩
    show 100 + 3 * a < 100 + 3 * b
    omega
  obtain ⟨hsame, houtcome⟩ := parse_joined htokens
  rw [hjoined] at hsame houtcome
  exact ⟨tokens, htokens, hjoined, hsame, houtcome 1 _ _ Supply.valid_initial hvalid⟩

end Expr

end ExactAlgebra
