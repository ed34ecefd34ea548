import ExactAlgebra.Proofs.Grammar

/-!
# How trees are written

Before it is put in normal form, a token list writes a tree more freely: a run of signs stands for
one minus, for one plus or for nothing, and factors may stand side by side without an operator.

* `negative`: a run of signs with an odd number of minus signs.
* `Tree.Writes`: a token list writes a tree.
* `Joint`: what may stand between an operand and the next one; `Tree.join`: a tree with one operand
  more at its end.
* `join_tokens`, `join_writes`: what the new operand adds to the normal form and to the writing.
-/

namespace ExactAlgebra.Grammar

/-! ## Runs of signs -/

/-- The number of minus signs in the run is odd. -/
def negative : List Sign → Bool
  | [] => false
  | .plus :: signs => negative signs
  | .minus :: signs => !negative signs

theorem negative_append (signs signs' : List Sign) :
    negative (signs ++ signs') = (negative signs ^^ negative signs') := by
  induction signs with
  | nil => simp [negative]
  | cons sign signs ih => cases sign <;> simp [negative, ih]

def signTokens (signs : List Sign) : List Token :=
  signs.map fun sign => .operator (signOperator sign)

/-! ## Writings -/

mutual

def Primary.Writes : Primary Atom → List Token → Prop
  | .leaf a, w => w = [.atom a]
  | .group s, w => ∃ w', Tree.Writes s w' ∧ w = .opening :: (w' ++ [.closing])

def Factor.Writes : Factor (Primary Atom) → List Token → Prop
  | .operand p, w => p.Writes w
  | .power p negated f, w => ∃ wp signs wf, p.Writes wp ∧ f.Writes wf ∧ negative signs = negated ∧
      w = wp ++ .operator .caret :: (signTokens signs ++ wf)

/-- The tokens write the term.  Between two factors a sign stands only after an operator. -/
def Term.Writes : Term (Factor (Primary Atom)) → List Token → Prop
  | .factor f, w => f.Writes w
  | .multiply t negated f, w => ∃ wt wf, t.Writes wt ∧ f.Writes wf ∧
      ((∃ signs, negative signs = negated ∧
        w = wt ++ .operator .times :: (signTokens signs ++ wf)) ∨ negated = false ∧ w = wt ++ wf)
  | .divide t negated f, w => ∃ wt signs wf, t.Writes wt ∧ f.Writes wf ∧ negative signs = negated ∧
      w = wt ++ .operator .over :: (signTokens signs ++ wf)

def Tree.Writes : Tree Atom → List Token → Prop
  | .term negated t, w => ∃ signs wt, t.Writes wt ∧ negative signs = negated ∧
      w = signTokens signs ++ wt
  | .add s sign t, w => ∃ ws signs wt, Tree.Writes s ws ∧ t.Writes wt ∧ signs ≠ [] ∧
      signIf (negative signs) = sign ∧ w = ws ++ (signTokens signs ++ wt)

end

/-! ### Beginnings -/

theorem Primary.Writes.begins {p : Primary Atom} {w : List Token} (h : p.Writes w) :
    Begins w := by
  cases p with
  | leaf a => rw [Primary.Writes] at h; exact .inl ⟨a, [], h⟩
  | group s => rw [Primary.Writes] at h; obtain ⟨w', -, rfl⟩ := h; exact .inr ⟨_, rfl⟩

theorem Factor.Writes.begins {f : Factor (Primary Atom)} {w : List Token} (h : f.Writes w) :
    Begins w := by
  cases f with
  | operand p => rw [Factor.Writes] at h; exact h.begins
  | power p negated f =>
    rw [Factor.Writes] at h
    obtain ⟨wp, signs, wf, hp, -, -, rfl⟩ := h
    exact hp.begins.append _

theorem Term.Writes.begins {t : Term (Factor (Primary Atom))} {w : List Token} (h : t.Writes w) :
    Begins w := by
  induction t generalizing w with
  | factor f => rw [Term.Writes] at h; exact h.begins
  | multiply t negated f ih =>
    rw [Term.Writes] at h
    obtain ⟨wt, wf, ht, -, ⟨signs, -, rfl⟩ | ⟨-, rfl⟩⟩ := h
    · exact (ih ht).append _
    · exact (ih ht).append _
  | divide t negated f ih =>
    rw [Term.Writes] at h
    obtain ⟨wt, signs, wf, ht, -, -, rfl⟩ := h
    exact (ih ht).append _

/-! ## One operand more -/

section Last

variable {β : Type}

/-- The factor with an exponent on top of its last exponent. -/
def Factor.raiseLast (negated : Bool) (e : β) : Factor β → Factor β
  | .operand b => .power b negated (.operand e)
  | .power b minus f => .power b minus (f.raiseLast negated e)

def Term.onLast (g : β → β) : Term β → Term β
  | .factor f => .factor (g f)
  | .multiply t negated f => .multiply t negated (g f)
  | .divide t negated f => .divide t negated (g f)

def Sum.onLast (g : Term β → Term β) : Sum β → Sum β
  | .term negated t => .term negated (g t)
  | .add s sign t => .add s sign (g t)

end Last

/-- What may stand between an operand and the next one, with the signs read so far. -/
inductive Joint where
  /-- A run of signs that is not empty. -/
  | sum (first : Sign) (signs : List Sign)
  | multiply (signs : List Sign)
  | divide (signs : List Sign)
  | caret (signs : List Sign)
  /-- Nothing at all. -/
  | beside

namespace Joint

def written : Joint → List Token
  | .sum first signs => signTokens (first :: signs)
  | .multiply signs => .operator .times :: signTokens signs
  | .divide signs => .operator .over :: signTokens signs
  | .caret signs => .operator .caret :: signTokens signs
  | .beside => []

def normal : Joint → List Token
  | .sum first signs => [.operator (signOperator (signIf (negative (first :: signs))))]
  | .multiply signs => .operator .times :: minusIf (negative signs)
  | .divide signs => .operator .over :: minusIf (negative signs)
  | .caret signs => .operator .caret :: minusIf (negative signs)
  | .beside => [.operator .times]

def snoc (sign : Sign) : Joint → Joint
  | .sum first signs => .sum first (signs ++ [sign])
  | .multiply signs => .multiply (signs ++ [sign])
  | .divide signs => .divide (signs ++ [sign])
  | .caret signs => .caret (signs ++ [sign])
  | .beside => .sum sign []

end Joint

/-- The tree with one operand more at its end. -/
def Tree.join (s : Tree Atom) (j : Joint) (p : Primary Atom) : Tree Atom :=
  match j with
  | .sum first signs => .add s (signIf (negative (first :: signs))) (.factor (.operand p))
  | .multiply signs => s.onLast fun t => .multiply t (negative signs) (.operand p)
  | .divide signs => s.onLast fun t => .divide t (negative signs) (.operand p)
  | .caret signs => s.onLast (.onLast (.raiseLast (negative signs) p))
  | .beside => s.onLast fun t => .multiply t false (.operand p)

/-! ### Normal form -/

theorem Factor.tokens_raiseLast (f : Factor (Primary Atom)) (negated : Bool) (p : Primary Atom) :
    (f.raiseLast negated p).tokens =
      f.tokens ++ .operator .caret :: (minusIf negated ++ p.tokens) := by
  induction f with
  | operand b => rw [raiseLast, tokens, tokens, tokens]
  | power b minus f ih => rw [raiseLast, tokens, ih, tokens]; simp

theorem Term.tokens_onLast {g : Factor (Primary Atom) → Factor (Primary Atom)} {w : List Token}
    (hg : ∀ f, (g f).tokens = f.tokens ++ w) (t : Term (Factor (Primary Atom))) :
    (t.onLast g).tokens = t.tokens ++ w := by
  cases t with
  | factor f => rw [onLast, tokens, tokens, hg]
  | multiply t negated f => rw [onLast, tokens, tokens, hg]; simp
  | divide t negated f => rw [onLast, tokens, tokens, hg]; simp

theorem Tree.tokens_onLast
    {g : Term (Factor (Primary Atom)) → Term (Factor (Primary Atom))} {w : List Token}
    (hg : ∀ t, (g t).tokens = t.tokens ++ w) (s : Tree Atom) :
    Tree.tokens (s.onLast g) = Tree.tokens s ++ w := by
  cases s with
  | term negated t => rw [Sum.onLast, tokens, tokens, hg]; simp
  | add s sign t => rw [Sum.onLast, tokens, tokens, hg]; simp

/-- The normal form of a tree with one operand more. -/
theorem join_tokens (s : Tree Atom) (j : Joint) (p : Primary Atom) :
    Tree.tokens (s.join j p) = Tree.tokens s ++ (j.normal ++ p.tokens) := by
  cases j with
  | sum first signs => simp [Tree.join, Tree.tokens, Term.tokens, Factor.tokens, Joint.normal]
  | multiply signs =>
    exact Tree.tokens_onLast (fun t => by simp [Term.tokens, Factor.tokens, Joint.normal]) s
  | divide signs =>
    exact Tree.tokens_onLast (fun t => by simp [Term.tokens, Factor.tokens, Joint.normal]) s
  | caret signs =>
    exact Tree.tokens_onLast (Term.tokens_onLast fun f => by
      simp [Factor.tokens_raiseLast, Joint.normal]) s
  | beside =>
    exact Tree.tokens_onLast (fun t => by
      simp [Term.tokens, Factor.tokens, Joint.normal, minusIf]) s

/-! ### Writings -/

theorem Factor.writes_raiseLast {f : Factor (Primary Atom)} {p : Primary Atom} {w wp : List Token}
    (hp : p.Writes wp) (signs : List Sign) (h : f.Writes w) :
    (f.raiseLast (negative signs) p).Writes
      (w ++ .operator .caret :: (signTokens signs ++ wp)) := by
  induction f generalizing w with
  | operand b =>
    rw [Writes] at h
    rw [raiseLast, Writes]
    exact ⟨w, signs, wp, h, by rwa [Writes], rfl, rfl⟩
  | power b minus f ih =>
    rw [Writes] at h
    obtain ⟨wb, signs', wf, hb, hf, hn, rfl⟩ := h
    rw [raiseLast, Writes]
    exact ⟨wb, signs', _, hb, ih hf, hn, by simp⟩

theorem Term.writes_onLast {g : Factor (Primary Atom) → Factor (Primary Atom)} {w' : List Token}
    (hg : ∀ f w, f.Writes w → (g f).Writes (w ++ w')) {t : Term (Factor (Primary Atom))}
    {w : List Token} (h : t.Writes w) : (t.onLast g).Writes (w ++ w') := by
  cases t with
  | factor f =>
    rw [Writes] at h
    rw [onLast, Writes]
    exact hg f w h
  | multiply t negated f =>
    rw [Writes] at h
    rw [onLast, Writes]
    obtain ⟨wt, wf, ht, hf, ⟨signs, hn, rfl⟩ | ⟨hn, rfl⟩⟩ := h
    · exact ⟨wt, _, ht, hg f wf hf, .inl ⟨signs, hn, by simp⟩⟩
    · exact ⟨wt, _, ht, hg f wf hf, .inr ⟨hn, by simp⟩⟩
  | divide t negated f =>
    rw [Writes] at h
    rw [onLast, Writes]
    obtain ⟨wt, signs, wf, ht, hf, hn, rfl⟩ := h
    exact ⟨wt, signs, _, ht, hg f wf hf, hn, by simp⟩

theorem Tree.writes_onLast
    {g : Term (Factor (Primary Atom)) → Term (Factor (Primary Atom))} {w' : List Token}
    (hg : ∀ t w, t.Writes w → (g t).Writes (w ++ w')) {s : Tree Atom} {w : List Token}
    (h : Tree.Writes s w) : Tree.Writes (s.onLast g) (w ++ w') := by
  cases s with
  | term negated t =>
    rw [Writes] at h
    rw [Sum.onLast, Writes]
    obtain ⟨signs, wt, ht, hn, rfl⟩ := h
    exact ⟨signs, _, hg t wt ht, hn, by simp⟩
  | add s sign t =>
    rw [Writes] at h
    rw [Sum.onLast, Writes]
    obtain ⟨ws, signs, wt, hs, ht, hne, hn, rfl⟩ := h
    exact ⟨ws, signs, _, hs, hg t wt ht, hne, hn, by simp⟩

/-- A writing of a tree with one operand more. -/
theorem join_writes {s : Tree Atom} {p : Primary Atom} {w wp : List Token}
    (hs : Tree.Writes s w) (hp : p.Writes wp) (j : Joint) :
    Tree.Writes (s.join j p) (w ++ (j.written ++ wp)) := by
  have hf : (Factor.operand p).Writes wp := by rwa [Factor.Writes]
  cases j with
  | sum first signs =>
    rw [Tree.join, Tree.Writes]
    exact ⟨w, first :: signs, wp, hs, by rwa [Term.Writes], nofun, rfl, rfl⟩
  | multiply signs =>
    exact Tree.writes_onLast (fun t w ht => by
      rw [Term.Writes]; exact ⟨w, wp, ht, hf, .inl ⟨signs, rfl, rfl⟩⟩) hs
  | divide signs =>
    exact Tree.writes_onLast (fun t w ht => by
      rw [Term.Writes]; exact ⟨w, signs, wp, ht, hf, rfl, rfl⟩) hs
  | caret signs =>
    exact Tree.writes_onLast (fun t w ht => Term.writes_onLast (fun f w hf =>
      Factor.writes_raiseLast hp signs hf) ht) hs
  | beside =>
    exact Tree.writes_onLast (fun t w ht => by
      rw [Term.Writes]; exact ⟨w, wp, ht, hf, .inr ⟨rfl, rfl⟩⟩) hs

/-- A tree of a single operand. -/
theorem start_writes {p : Primary Atom} {wp : List Token} (hp : p.Writes wp) (signs : List Sign) :
    Tree.Writes (.term (negative signs) (.factor (.operand p))) (signTokens signs ++ wp) := by
  rw [Tree.Writes]
  exact ⟨signs, wp, by rwa [Term.Writes, Factor.Writes], rfl, rfl⟩

theorem start_tokens (p : Primary Atom) (signs : List Sign) :
    Tree.tokens (.term (negative signs) (.factor (.operand p))) =
      minusIf (negative signs) ++ p.tokens := by
  rw [Tree.tokens, Term.tokens, Factor.tokens]

end ExactAlgebra.Grammar
