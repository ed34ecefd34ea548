import ExactAlgebra.Proofs.Written
import ExactAlgebra.Token.Lexer

/-!
# Normal forms are token lists of trees

The normal form of raw tokens is built token by token.  At every moment it is the normal form of
some open bracket groups, each waiting for an operand, and of an innermost one that may also have
just read an operand; the raw tokens read so far are a writing of the same groups.  One raw token
leads from one such moment to the next, and at the end the open groups are closed from the inside
out.

* `Waiting`: a bracket group that waits for an operand.  `Level`: the innermost bracket group.
* `Reads`: what has been read, as a stack of groups.
* `Reads.step`, `Reads.run`: one token, and all tokens.
* `exists_tree_of_normalize`: a normal form is the token list of a tree, which the raw tokens write.
-/

namespace ExactAlgebra.Grammar

/-! ## Where operands end -/

/-- The last token of the list, which is given with its last token first, ends an operand. -/
def AtOperand (output : List Token) : Prop := output.head?.any Token.endsOperand = true

/-- The list, given with its last token first, is empty or ends with an opening bracket or with an
operator between operands. -/
def AtGap (output : List Token) : Prop :=
  output.head? = none ∨ ∃ t, output.head? = some t ∧ t.endsOperand = false ∧
    t ≠ .operator .plus ∧ t ≠ .operator .minus

theorem AtGap.not_atOperand {output : List Token} (h : AtGap output) :
    output.head?.any Token.endsOperand = false := by
  rcases h with h | ⟨t, h, ht, -⟩
  · rw [h]; rfl
  · rw [h]; exact ht

theorem atGap_cons {t : Token} (output : List Token) (ht : t.endsOperand = false)
    (hp : t ≠ .operator .plus) (hm : t ≠ .operator .minus) : AtGap (t :: output) :=
  .inr ⟨t, rfl, ht, hp, hm⟩

theorem AtOperand.append {output : List Token} (h : AtOperand output) (rest : List Token) :
    AtOperand (output ++ rest) := by
  cases output with
  | nil => exact nomatch h
  | cons t output => exact h

theorem AtOperand.reverse_append {tokens : List Token} (h : AtOperand tokens.reverse)
    (before : List Token) : AtOperand (before ++ tokens).reverse := by
  rw [List.reverse_append]
  exact h.append _

theorem Primary.atOperand (p : Primary Atom) : AtOperand p.tokens.reverse := by
  cases p with
  | leaf a => rw [tokens]; rfl
  | group s => rw [tokens, List.reverse_cons, List.reverse_append]; rfl

theorem Factor.atOperand (f : Factor (Primary Atom)) : AtOperand f.tokens.reverse := by
  induction f with
  | operand p => rw [tokens]; exact p.atOperand
  | power p negated f ih =>
    rw [tokens, ← List.cons_append, ← List.append_assoc]
    exact ih.reverse_append _

theorem Term.atOperand (t : Term (Factor (Primary Atom))) : AtOperand t.tokens.reverse := by
  cases t with
  | factor f => rw [tokens]; exact f.atOperand
  | multiply t negated f =>
    rw [tokens, ← List.cons_append, ← List.append_assoc]
    exact f.atOperand.reverse_append _
  | divide t negated f =>
    rw [tokens, ← List.cons_append, ← List.append_assoc]
    exact f.atOperand.reverse_append _

theorem Tree.atOperand (s : Tree Atom) : AtOperand (Tree.tokens s).reverse := by
  cases s with
  | term negated t => rw [tokens]; exact t.atOperand.reverse_append _
  | add s sign t =>
    rw [tokens, ← List.singleton_append, ← List.append_assoc]
    exact t.atOperand.reverse_append _

/-! ## Groups -/

/-- A bracket group that waits for an operand: at its beginning, or after a tree and its writing. -/
inductive Waiting where
  | start (signs : List Sign)
  | joint (s : Tree Atom) (w : List Token) (j : Joint)

namespace Waiting

def written : Waiting → List Token
  | start signs => signTokens signs
  | joint _ w j => w ++ j.written

def normal : Waiting → List Token
  | start signs => minusIf (negative signs)
  | joint s _ j => Tree.tokens s ++ j.normal

def fill (p : Primary Atom) : Waiting → Tree Atom
  | start signs => .term (negative signs) (.factor (.operand p))
  | joint s _ j => s.join j p

def snoc (sign : Sign) : Waiting → Waiting
  | start signs => start (signs ++ [sign])
  | joint s w j => joint s w (j.snoc sign)

def Sound : Waiting → Prop
  | start _ => True
  | joint s w _ => Tree.Writes s w

/-- Something stands between the last operand and the one that is to come. -/
def Apart : Waiting → Prop
  | start _ => True
  | joint _ _ j => j ≠ .beside

theorem tokens_fill (f : Waiting) (p : Primary Atom) :
    Tree.tokens (f.fill p) = f.normal ++ p.tokens := by
  cases f with
  | start signs => exact start_tokens p signs
  | joint s w j => rw [fill, normal, join_tokens, List.append_assoc]

theorem writes_fill {f : Waiting} (hf : f.Sound) {p : Primary Atom} {wp : List Token}
    (hp : p.Writes wp) : Tree.Writes (f.fill p) (f.written ++ wp) := by
  cases f with
  | start signs => exact start_writes hp signs
  | joint s w j => rw [fill, written, List.append_assoc]; exact join_writes hf hp j

theorem Sound.snoc {f : Waiting} (hf : f.Sound) (sign : Sign) : (f.snoc sign).Sound := by
  cases f with
  | start signs => exact hf
  | joint s w j => exact hf

theorem Apart.snoc {f : Waiting} (sign : Sign) : (f.snoc sign).Apart := by
  cases f with
  | start signs => exact trivial
  | joint s w j => cases j <;> exact nofun

theorem written_snoc (f : Waiting) (sign : Sign) :
    (f.snoc sign).written = f.written ++ signTokens [sign] := by
  cases f with
  | start signs => simp [snoc, written, signTokens]
  | joint s w j => cases j <;> simp [snoc, Joint.snoc, written, Joint.written, signTokens]

end Waiting

/-- The innermost bracket group: it waits for an operand, or it has just read one. -/
inductive Level where
  | waiting (f : Waiting)
  | after (s : Tree Atom) (w : List Token)

namespace Level

def written : Level → List Token
  | waiting f => f.written
  | after _ w => w

def normal : Level → List Token
  | waiting f => f.normal
  | after s _ => Tree.tokens s

/-- The group as it waits for the operand that comes next. -/
def next : Level → Waiting
  | waiting f => f
  | after s w => .joint s w .beside

def Sound : Level → Prop
  | waiting f => f.Sound ∧ f.Apart
  | after s w => Tree.Writes s w

theorem written_next (l : Level) : l.next.written = l.written := by
  cases l with
  | waiting f => rfl
  | after s w => exact List.append_nil w

theorem Sound.next {l : Level} (hl : l.Sound) : l.next.Sound := by
  cases l with
  | waiting f => exact hl.1
  | after s w => exact hl

end Level

/-- The groups around the innermost one as they have been written, the innermost of them first. -/
def openWritten : List Waiting → List Token
  | [] => []
  | f :: outer => openWritten outer ++ (f.written ++ [.opening])

def openNormal : List Waiting → List Token
  | [] => []
  | f :: outer => openNormal outer ++ (f.normal ++ [.opening])

theorem atGap_openNormal (outer : List Waiting) : AtGap (openNormal outer).reverse := by
  cases outer with
  | nil => exact .inl rfl
  | cons f outer =>
    rw [openNormal, ← List.append_assoc, List.reverse_append]
    exact atGap_cons _ rfl (by decide) (by decide)

/-! ## Signs -/

section Signs

variable {σ : Normalizer} {output : List Token}

theorem reverse_minusIf (negated : Bool) : (minusIf negated).reverse = minusIf negated := by
  cases negated <;> rfl

theorem AtGap.minusIf {output : List Token} (h : AtGap output) (negated : Bool) :
    (minusIf negated ++ output).head?.any Token.endsOperand = false := by
  cases negated with
  | false => exact h.not_atOperand
  | true => rfl

/-- After an operand, a minus is an operator. -/
theorem outputForMinus_atOperand (h : AtOperand σ.output) :
    σ.outputForMinus = .operator .minus :: σ.output := by
  unfold Normalizer.outputForMinus
  split
  next e => rw [AtOperand, e] at h; exact absurd h Bool.false_ne_true
  next e => rw [AtOperand, e] at h; exact absurd h Bool.false_ne_true
  next => rfl

/-- Where no operand stands, two minus signs cancel. -/
theorem outputForMinus_atGap (h : AtGap output) {negated : Bool}
    (hσ : σ.output = minusIf negated ++ output) :
    σ.outputForMinus = minusIf (!negated) ++ output := by
  unfold Normalizer.outputForMinus
  rw [hσ]
  cases negated with
  | true =>
    change (if output.head?.any Token.endsOperand then _ else output) = output
    rw [h.not_atOperand]
    rfl
  | false =>
    rw [show minusIf false ++ output = output from rfl]
    split
    next => rcases h with h | ⟨t, h, -, hp, -⟩ <;> cases h; exact absurd rfl hp
    next => rcases h with h | ⟨t, h, -, -, hm⟩ <;> cases h; exact absurd rfl hm
    next => rfl

/-- The sign between two operands changes with every minus. -/
theorem outputForMinus_sign (h : AtOperand output) {negated : Bool}
    (hσ : σ.output = .operator (signOperator (signIf negated)) :: output) :
    σ.outputForMinus = .operator (signOperator (signIf !negated)) :: output := by
  unfold Normalizer.outputForMinus
  rw [hσ]
  cases negated with
  | true =>
    change (if output.head?.any Token.endsOperand then _ else output) = _
    rw [AtOperand] at h
    rw [h]
    rfl
  | false => rfl

end Signs

namespace Waiting

variable {f : Waiting} {base : List Token}

theorem not_atOperand (hf : f.Apart) (hbase : AtGap base) :
    (f.normal.reverse ++ base).head?.any Token.endsOperand = false := by
  cases f with
  | start signs =>
    rw [normal, reverse_minusIf]
    exact hbase.minusIf _
  | joint s w j =>
    rw [normal, List.reverse_append, List.append_assoc]
    cases j with
    | sum first signs => rfl
    | multiply signs | divide signs | caret signs =>
      rw [Joint.normal, List.reverse_cons, reverse_minusIf, List.append_assoc,
        List.singleton_append]
      refine AtGap.minusIf ?_ _
      exact atGap_cons _ rfl (by decide) (by decide)
    | beside => exact absurd rfl hf

theorem normal_snoc_plus (hf : f.Apart) : (f.snoc .plus).normal = f.normal := by
  cases f with
  | start signs => simp [snoc, normal, negative_append, negative]
  | joint s w j =>
    cases j with
    | sum first signs =>
      rw [snoc, Joint.snoc, normal, normal, Joint.normal, Joint.normal, ← List.cons_append,
        negative_append]
      simp [negative]
    | multiply signs | divide signs | caret signs =>
      simp [snoc, Joint.snoc, normal, Joint.normal, negative_append, negative]
    | beside => exact absurd rfl hf

theorem outputForMinus_normal {σ : Normalizer} (hf : f.Apart) (hbase : AtGap base)
    (hσ : σ.output = f.normal.reverse ++ base) :
    σ.outputForMinus = (f.snoc .minus).normal.reverse ++ base := by
  have hflip : ∀ signs : List Sign, negative (signs ++ [.minus]) = !negative signs := by
    intro signs
    rw [negative_append]
    simp [negative]
  cases f with
  | start signs =>
    rw [normal, reverse_minusIf] at hσ
    rw [outputForMinus_atGap hbase hσ, snoc, normal, hflip, reverse_minusIf]
  | joint s w j =>
    rw [normal, List.reverse_append, List.append_assoc] at hσ
    rw [snoc, normal, List.reverse_append, List.append_assoc]
    cases j with
    | sum first signs =>
      have hflip' := hflip (first :: signs)
      rw [List.cons_append] at hflip'
      rw [outputForMinus_sign (s.atOperand.append base) hσ, Joint.snoc, Joint.normal, hflip',
        List.reverse_singleton, List.singleton_append]
    | multiply signs | divide signs | caret signs =>
      rw [Joint.normal, List.reverse_cons, reverse_minusIf, List.append_assoc,
        List.singleton_append] at hσ
      refine (outputForMinus_atGap ?_ hσ).trans ?_
      · exact atGap_cons _ rfl (by decide) (by decide)
      · rw [Joint.snoc, Joint.normal, hflip, List.reverse_cons, reverse_minusIf, List.append_assoc,
          List.singleton_append]
    | beside => exact absurd rfl hf

end Waiting

/-! ## One token -/

/-- Of the raw tokens `raw`, the groups in `outer` are still open around the innermost group
`inner`; the normal form so far is that of the groups. -/
structure Reads (raw : List Token) (σ : Normalizer) (outer : List Waiting) (inner : Level) :
    Prop where
  written : raw = openWritten outer ++ inner.written
  normal : σ.output = inner.normal.reverse ++ (openNormal outer).reverse
  depth : σ.depth = outer.length
  outer_sound : ∀ f ∈ outer, f.Sound
  inner_sound : inner.Sound

theorem Reads.empty : Reads [] .empty [] (.waiting (.start [])) :=
  ⟨rfl, rfl, rfl, nofun, trivial, trivial⟩

namespace Reads

variable {raw : List Token} {σ : Normalizer} {outer : List Waiting} {inner : Level}
  {f : Waiting} {s : Tree Atom} {w : List Token} {previous : Option Token}

theorem atOperand (h : Reads raw σ outer (.after s w)) : AtOperand σ.output := by
  rw [h.normal]
  exact s.atOperand.append _

theorem afterOperand_after (h : Reads raw σ outer (.after s w)) : σ.afterOperand = true :=
  h.atOperand

theorem afterOperand_waiting (h : Reads raw σ outer (.waiting f)) : σ.afterOperand = false := by
  rw [Normalizer.afterOperand, h.normal]
  exact f.not_atOperand h.inner_sound.2 (atGap_openNormal outer)

/-- Only after an operand does the normal form end with one. -/
theorem exists_after (h : Reads raw σ outer inner) (ha : σ.afterOperand = true) :
    ∃ s w, inner = .after s w := by
  cases inner with
  | waiting f => rw [h.afterOperand_waiting] at ha; exact nomatch ha
  | after s w => exact ⟨s, w, rfl⟩

theorem outputForOperand (h : Reads raw σ outer inner) :
    σ.outputForOperand = inner.next.normal.reverse ++ (openNormal outer).reverse := by
  rw [Normalizer.outputForOperand]
  cases inner with
  | waiting f => rw [h.afterOperand_waiting, h.normal]; rfl
  | after s w =>
    rw [if_pos h.afterOperand_after, h.normal, Level.next, Waiting.normal, List.reverse_append]
    rfl

/-- The group reads an atom. -/
theorem atom (h : Reads raw σ outer inner) (a : Atom) :
    Reads (raw ++ [.atom a]) ⟨.atom a :: σ.outputForOperand, σ.depth, previous⟩ outer
      (.after (inner.next.fill (.leaf a)) (inner.next.written ++ [.atom a])) where
  written := by
    rw [h.written, List.append_assoc, Level.written, inner.written_next]
  normal := by
    rw [h.outputForOperand, Level.normal, Waiting.tokens_fill, Primary.tokens, List.reverse_append]
    rfl
  depth := h.depth
  outer_sound := h.outer_sound
  inner_sound := Waiting.writes_fill h.inner_sound.next (by rw [Primary.Writes])

/-- A bracket opens a new group. -/
theorem opening (h : Reads raw σ outer inner) :
    Reads (raw ++ [.opening]) ⟨.opening :: σ.outputForOperand, σ.depth + 1, previous⟩
      (inner.next :: outer) (.waiting (.start [])) where
  written := by
    rw [h.written, openWritten, inner.written_next, Level.written, Waiting.written, signTokens,
      List.map_nil, List.append_nil, List.append_assoc]
  normal := by
    rw [h.outputForOperand, openNormal, List.reverse_append, List.reverse_append]
    rfl
  depth := by rw [h.depth, List.length_cons]
  outer_sound := List.forall_mem_cons.mpr ⟨h.inner_sound.next, h.outer_sound⟩
  inner_sound := ⟨trivial, trivial⟩

/-- A bracket closes the innermost group, which becomes an operand of the one around it. -/
theorem closing (h : Reads raw σ (f :: outer) (.after s w)) :
    Reads (raw ++ [.closing]) ⟨.closing :: σ.output, σ.depth - 1, previous⟩ outer
      (.after (f.fill (.group s)) (f.written ++ (.opening :: (w ++ [.closing])))) where
  written := by
    rw [h.written, openWritten, Level.written, Level.written]
    simp only [List.append_assoc, List.cons_append, List.nil_append]
  normal := by
    rw [h.normal, openNormal, Level.normal, Level.normal, Waiting.tokens_fill, Primary.tokens]
    simp only [List.reverse_append, List.reverse_cons, List.append_assoc, List.reverse_nil,
      List.nil_append, List.cons_append]
  depth := by rw [h.depth, List.length_cons, Nat.add_sub_cancel]
  outer_sound := (List.forall_mem_cons.mp h.outer_sound).2
  inner_sound := Waiting.writes_fill (List.forall_mem_cons.mp h.outer_sound).1
    (by rw [Primary.Writes]; exact ⟨w, h.inner_sound, rfl⟩)

/-- A group that waits for an operand reads a sign. -/
theorem sign (h : Reads raw σ outer (.waiting f)) (sign : Sign) {output : List Token}
    (ho : output = (f.snoc sign).normal.reverse ++ (openNormal outer).reverse) :
    Reads (raw ++ signTokens [sign]) ⟨output, σ.depth, previous⟩ outer
      (.waiting (f.snoc sign)) where
  written := by rw [h.written, Level.written, Level.written, f.written_snoc, List.append_assoc]
  normal := ho
  depth := h.depth
  outer_sound := h.outer_sound
  inner_sound := ⟨h.inner_sound.1.snoc sign, .snoc sign⟩

/-- After an operand, a group reads what stands before the next one. -/
theorem joint (h : Reads raw σ outer (.after s w)) (j : Joint) (hj : j ≠ .beside) :
    Reads (raw ++ j.written) ⟨j.normal.reverse ++ σ.output, σ.depth, previous⟩ outer
      (.waiting (.joint s w j)) where
  written := by
    rw [h.written, Level.written, Level.written, Waiting.written, List.append_assoc]
  normal := by
    rw [h.normal, Level.normal, Level.normal, Waiting.normal, List.reverse_append,
      List.append_assoc]
  depth := h.depth
  outer_sound := h.outer_sound
  inner_sound := ⟨h.inner_sound, hj⟩

/-- An operator that is not a sign is read after an operand, or else refused. -/
theorem binary {source : String} {o : Operator} {σ' : Normalizer} (h : Reads raw σ outer inner)
    (hs : (if σ.afterOperand then
      Except.ok ⟨.operator o :: σ.output, σ.depth, some (.operator o)⟩
    else .error (TextFault.danglingOperator source)) = Except.ok σ')
    (j : Joint) (hj : j ≠ .beside) (hw : j.written = [.operator o])
    (hn : j.normal = [.operator o]) :
    ∃ outer' inner', Reads (raw ++ [.operator o]) σ' outer' inner' := by
  split at hs
  next ha =>
    obtain ⟨s, w, rfl⟩ := h.exists_after ha
    cases hs
    have hr : Reads _ ⟨_, _, some (.operator o)⟩ _ _ := h.joint j hj
    rw [hw, hn] at hr
    exact ⟨outer, _, hr⟩
  next => exact nomatch hs

/-- A closing bracket is read after an operand within brackets, or else refused. -/
theorem step_closing {source : String} {σ' : Normalizer} (h : Reads raw σ outer inner)
    (hs : σ.step source .closing = .ok σ') :
    ∃ outer' inner', Reads (raw ++ [.closing]) σ' outer' inner' := by
  rw [Normalizer.step] at hs
  split at hs
  · exact nomatch hs
  next hdepth =>
    split at hs
    · exact nomatch hs
    · split at hs
      next ha =>
        obtain ⟨s, w, rfl⟩ := h.exists_after ha
        cases outer with
        | nil => exact absurd h.depth hdepth
        | cons f outer =>
          cases hs
          exact ⟨outer, _, h.closing⟩
      next => exact nomatch hs

/-- A plus adds to the signs before an operand, or it begins a new term. -/
theorem step_plus {source : String} {σ' : Normalizer} (h : Reads raw σ outer inner)
    (hs : σ.step source (.operator .plus) = .ok σ') :
    ∃ outer' inner', Reads (raw ++ [.operator .plus]) σ' outer' inner' := by
  cases hs
  cases inner with
  | waiting f =>
    refine ⟨outer, _, h.sign .plus ?_⟩
    rw [h.afterOperand_waiting, Waiting.normal_snoc_plus h.inner_sound.2]
    exact h.normal
  | after s w =>
    rw [if_pos h.afterOperand_after]
    exact ⟨outer, _, h.joint (.sum .plus []) nofun⟩

/-- A minus changes the sign before an operand, or it begins a new term. -/
theorem step_minus {source : String} {σ' : Normalizer} (h : Reads raw σ outer inner)
    (hs : σ.step source (.operator .minus) = .ok σ') :
    ∃ outer' inner', Reads (raw ++ [.operator .minus]) σ' outer' inner' := by
  cases hs
  cases inner with
  | waiting f =>
    have hnormal := Waiting.outputForMinus_normal h.inner_sound.2 (atGap_openNormal outer) h.normal
    exact ⟨outer, _, h.sign .minus hnormal⟩
  | after s w =>
    rw [outputForMinus_atOperand h.atOperand]
    exact ⟨outer, _, h.joint (.sum .minus []) nofun⟩

/-- **One raw token** leads from what has been read to what has been read. -/
theorem step {source : String} {token : Token} {σ' : Normalizer} (h : Reads raw σ outer inner)
    (hs : σ.step source token = .ok σ') :
    ∃ outer' inner', Reads (raw ++ [token]) σ' outer' inner' := by
  cases token with
  | atom a =>
    cases a with
    | number n =>
      rw [Normalizer.step] at hs
      split at hs
      · exact nomatch hs
      · cases hs
        exact ⟨outer, _, h.atom _⟩
    | _ name =>
      cases hs
      exact ⟨outer, _, h.atom _⟩
  | opening =>
    cases hs
    exact ⟨_, _, h.opening⟩
  | closing => exact h.step_closing hs
  | operator o =>
    cases o with
    | plus => exact h.step_plus hs
    | minus => exact h.step_minus hs
    | times => exact h.binary hs (.multiply []) nofun rfl rfl
    | caret => exact h.binary hs (.caret []) nofun rfl rfl
    | _ => exact h.binary hs (.divide []) nofun rfl rfl

/-- **All raw tokens** lead from what has been read to what has been read. -/
theorem run {source : String} {tokens : List Token} {σ' : Normalizer}
    (h : Reads raw σ outer inner) (hs : tokens.foldlM (Normalizer.step source) σ = .ok σ') :
    ∃ outer' inner', Reads (raw ++ tokens) σ' outer' inner' := by
  induction tokens generalizing raw σ outer inner with
  | nil =>
    cases hs
    exact ⟨outer, inner, by rwa [List.append_nil]⟩
  | cons token tokens ih =>
    obtain ⟨σ₁, hstep, hrest⟩ := Normalizer.foldlM_cons_eq_ok hs
    obtain ⟨outer₁, inner₁, h₁⟩ := h.step hstep
    rw [← List.singleton_append, ← List.append_assoc]
    exact ih h₁ hrest

/-- At the end of the text, the innermost group has just read an operand. -/
theorem finish {source : String} {tokens : List Token} (h : Reads raw σ outer inner)
    (hs : σ.finish source = .ok tokens) : ∃ s w, inner = .after s w ∧
      tokens = openNormal outer ++ (Tree.tokens s ++ List.replicate outer.length .closing) := by
  rw [Normalizer.finish] at hs
  split at hs
  next => exact nomatch hs
  next => exact nomatch hs
  next last _ _ e =>
    split at hs
    next hlast =>
      obtain ⟨s, w, rfl⟩ := h.exists_after (by rw [Normalizer.afterOperand, e]; exact hlast)
      cases hs
      refine ⟨s, w, rfl, ?_⟩
      rw [h.normal, h.depth, Level.normal, List.reverse_append, List.reverse_reverse,
        List.reverse_reverse, List.append_assoc]
    next => exact nomatch hs

end Reads

/-! ## The whole text -/

/-- Open groups around a tree are closed to a tree. -/
theorem exists_closed {outer : List Waiting} (ho : ∀ f ∈ outer, f.Sound) {s : Tree Atom}
    {w : List Token} (hw : Tree.Writes s w) : ∃ s',
      Tree.tokens s' = openNormal outer ++
        (Tree.tokens s ++ List.replicate outer.length .closing) ∧
      Tree.Writes s' (openWritten outer ++ (w ++ List.replicate outer.length .closing)) := by
  induction outer generalizing s w with
  | nil =>
    refine ⟨s, ?_, ?_⟩
    · simp only [openNormal, List.length_nil, List.replicate_zero, List.append_nil, List.nil_append]
    · simpa only [openWritten, List.length_nil, List.replicate_zero, List.append_nil,
        List.nil_append] using hw
  | cons f outer ih =>
    obtain ⟨hf, ho⟩ := List.forall_mem_cons.mp ho
    have hgroup : (Primary.group s).Writes (.opening :: (w ++ [.closing])) := by
      rw [Primary.Writes]
      exact ⟨w, hw, rfl⟩
    obtain ⟨s', ht, hs'⟩ := ih ho (Waiting.writes_fill hf hgroup)
    refine ⟨s', ?_, ?_⟩
    · rw [ht, Waiting.tokens_fill, Primary.tokens, openNormal, List.length_cons,
        List.replicate_succ]
      simp only [List.append_assoc, List.cons_append, List.nil_append]
    · rw [openWritten, List.length_cons, List.replicate_succ]
      simpa only [List.append_assoc, List.cons_append, List.nil_append] using hs'

/-- **A normal form is the token list of a tree.**  The raw tokens, with their open brackets closed,
write the same tree. -/
theorem exists_tree_of_normalize {source : String} {raw tokens : List Token}
    (h : Normalizer.normalize source raw = .ok tokens) : ∃ (s : Tree Atom) (σ : Normalizer),
      Tree.tokens s = tokens ∧ raw.foldlM (Normalizer.step source) .empty = .ok σ ∧
      Tree.Writes s (raw ++ List.replicate σ.depth .closing) := by
  rw [Normalizer.normalize] at h
  cases hfold : raw.foldlM (Normalizer.step source) .empty with
  | error e => rw [hfold] at h; exact nomatch h
  | ok σ =>
    rw [hfold] at h
    obtain ⟨outer, inner, hr⟩ := Reads.empty.run hfold
    obtain ⟨s, w, rfl, rfl⟩ := hr.finish h
    obtain ⟨s', ht, hw⟩ := exists_closed hr.outer_sound hr.inner_sound
    refine ⟨s', σ, ht, rfl, ?_⟩
    have hraw := hr.written
    rw [List.nil_append] at hraw
    rw [hraw, hr.depth, List.append_assoc]
    exact hw

end ExactAlgebra.Grammar
