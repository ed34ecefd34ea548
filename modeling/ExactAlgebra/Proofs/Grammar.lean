import ExactAlgebra.Token

/-!
# The grammar of written expressions

Tokens in normal form are read by the grammar

    sum     = ['-'] term {('+' | '-') term}
    term    = factor {('*' | '/') ['-'] factor}
    factor  = primary ['^' ['-'] factor]
    primary = number | variable | '(' sum ')'

A tree of the grammar holds its operands as leaves, so that the same shapes serve for atoms, for
expressions and for expressions in which no bracket is left.

* `Tree.tokens`: the token list of a tree.
* `Tree.read?`: the tree of a token list, by recursive descent.  `read?_tokens`: it finds every
  tree.
-/

namespace ExactAlgebra.Grammar

/-- A factor: an operand, or an operand raised to a factor, perhaps with a minus before it. -/
inductive Factor (α : Type) where
  | operand (a : α)
  | power (base : α) (negated : Bool) (exponent : Factor α)

/-- A term: factors that are multiplied and divided from left to right, each but the first perhaps
with a minus before it. -/
inductive Term (α : Type) where
  | factor (a : α)
  | multiply (t : Term α) (negated : Bool) (a : α)
  | divide (t : Term α) (negated : Bool) (a : α)

/-- A sum: terms that are added and subtracted from left to right, the first perhaps with a minus
before it. -/
inductive Sum (α : Type) where
  | term (negated : Bool) (t : Term α)
  | add (s : Sum α) (sign : Sign) (t : Term α)

inductive Primary (α : Type) where
  | leaf (a : α)
  | group (s : Sum (Factor (Primary α)))

abbrev Tree (α : Type) := Sum (Factor (Primary α))

/-! ## Token lists -/

/-- The minus before an operand, if there is one. -/
def minusIf (negated : Bool) : List Token := if negated then [.operator .minus] else []

def signIf (negated : Bool) : Sign := if negated then .minus else .plus

def signOperator : Sign → Operator
  | .plus => .plus
  | .minus => .minus

mutual

def Primary.tokens : Primary Atom → List Token
  | .leaf a => [.atom a]
  | .group s => .opening :: (Tree.tokens s ++ [.closing])

def Factor.tokens : Factor (Primary Atom) → List Token
  | .operand p => p.tokens
  | .power p negated f => p.tokens ++ .operator .caret :: (minusIf negated ++ f.tokens)

def Term.tokens : Term (Factor (Primary Atom)) → List Token
  | .factor f => f.tokens
  | .multiply t negated f => t.tokens ++ .operator .times :: (minusIf negated ++ f.tokens)
  | .divide t negated f => t.tokens ++ .operator .over :: (minusIf negated ++ f.tokens)

def Tree.tokens : Tree Atom → List Token
  | .term negated t => minusIf negated ++ t.tokens
  | .add s sign t => Tree.tokens s ++ .operator (signOperator sign) :: t.tokens

end

/-- The token list begins as an operand does: with an atom or with a bracket. -/
def Begins (tokens : List Token) : Prop :=
  (∃ a rest, tokens = .atom a :: rest) ∨ ∃ rest, tokens = .opening :: rest

theorem Begins.append {tokens : List Token} (h : Begins tokens) (rest : List Token) :
    Begins (tokens ++ rest) := by
  rcases h with ⟨a, tokens, rfl⟩ | ⟨tokens, rfl⟩
  · exact .inl ⟨a, _, rfl⟩
  · exact .inr ⟨_, rfl⟩

theorem Begins.length_lt {tokens : List Token} (h : Begins tokens) (rest : List Token) :
    rest.length < (tokens ++ rest).length := by
  rcases h with ⟨a, tokens, rfl⟩ | ⟨tokens, rfl⟩ <;>
    simp only [List.cons_append, List.length_cons, List.length_append] <;> omega

theorem Primary.begins (p : Primary Atom) : Begins p.tokens := by
  cases p with
  | leaf a => exact .inl ⟨a, [], by rw [tokens]⟩
  | group s => exact .inr ⟨_, by rw [tokens]⟩

theorem Factor.begins (f : Factor (Primary Atom)) : Begins f.tokens := by
  cases f with
  | operand p => rw [tokens]; exact p.begins
  | power p negated f => rw [tokens]; exact p.begins.append _

theorem Term.begins (t : Term (Factor (Primary Atom))) : Begins t.tokens := by
  induction t with
  | factor f => rw [tokens]; exact f.begins
  | multiply t negated f ih => rw [tokens]; exact ih.append _
  | divide t negated f ih => rw [tokens]; exact ih.append _

/-! ## Recursive descent -/

/-- Takes the minus from the front of a token list, if there is one. -/
def takeMinus : List Token → Bool × List Token
  | .operator .minus :: tokens => (true, tokens)
  | tokens => (false, tokens)

theorem length_takeMinus (tokens : List Token) :
    (takeMinus tokens).2.length ≤ tokens.length := by
  unfold takeMinus
  split
  · exact Nat.le_succ _
  · exact Nat.le_refl _

theorem Begins.takeMinus {tokens : List Token} (h : Begins tokens) (negated : Bool) :
    takeMinus (minusIf negated ++ tokens) = (negated, tokens) := by
  cases negated with
  | true => rfl
  | false => rcases h with ⟨a, rest, rfl⟩ | ⟨rest, rfl⟩ <;> rfl

mutual

/-- Reads a primary from the front of a token list.  Here and below, a reader that has not taken a
token where it must gives up. -/
def readPrimary (tokens : List Token) : Option (Primary Atom × List Token) :=
  match tokens with
  | .atom a :: rest => some (.leaf a, rest)
  | .opening :: rest => do
    let (s, rest) ← readSum rest
    if rest.head? = some .closing then some (.group s, rest.tail) else none
  | _ => none
termination_by 4 * tokens.length

def readFactor (tokens : List Token) : Option (Factor (Primary Atom) × List Token) := do
  let (p, rest) ← readPrimary tokens
  match rest with
  | .operator .caret :: rest =>
    if rest.length < tokens.length then do
      have := length_takeMinus rest
      let (f, last) ← readFactor (takeMinus rest).2
      some (.power p (takeMinus rest).1 f, last)
    else none
  | rest => some (.operand p, rest)
termination_by 4 * tokens.length + 1

def readTerm (tokens : List Token) : Option (Term (Factor (Primary Atom)) × List Token) := do
  let (f, rest) ← readFactor tokens
  if rest.length < tokens.length then extendTerm (.factor f) rest else none
termination_by 4 * tokens.length + 2

def extendTerm (t : Term (Factor (Primary Atom))) (tokens : List Token) :
    Option (Term (Factor (Primary Atom)) × List Token) :=
  match tokens with
  | .operator .times :: rest => do
    have := length_takeMinus rest
    let (f, last) ← readFactor (takeMinus rest).2
    if last.length < rest.length then extendTerm (.multiply t (takeMinus rest).1 f) last else none
  | .operator .over :: rest => do
    have := length_takeMinus rest
    let (f, last) ← readFactor (takeMinus rest).2
    if last.length < rest.length then extendTerm (.divide t (takeMinus rest).1 f) last else none
  | rest => some (t, rest)
termination_by 4 * tokens.length + 2

def readSum (tokens : List Token) : Option (Tree Atom × List Token) := do
  have := length_takeMinus tokens
  let (t, rest) ← readTerm (takeMinus tokens).2
  if rest.length < tokens.length then extendSum (.term (takeMinus tokens).1 t) rest else none
termination_by 4 * tokens.length + 3

def extendSum (s : Tree Atom) (tokens : List Token) : Option (Tree Atom × List Token) :=
  match tokens with
  | .operator .plus :: rest => do
    let (t, last) ← readTerm rest
    if last.length < rest.length then extendSum (.add s .plus t) last else none
  | .operator .minus :: rest => do
    let (t, last) ← readTerm rest
    if last.length < rest.length then extendSum (.add s .minus t) last else none
  | rest => some (s, rest)
termination_by 4 * tokens.length + 2

end

def Tree.read? (tokens : List Token) : Option (Tree Atom) :=
  match readSum tokens with
  | some (s, []) => some s
  | _ => none

/-! ### Every tree is found -/

/-- What follows a factor does not raise it to a power. -/
def EndsFactor (rest : List Token) : Prop := rest.head? ≠ some (.operator .caret)

/-- What follows a term does not continue it. -/
def EndsTerm (rest : List Token) : Prop :=
  EndsFactor rest ∧ rest.head? ≠ some (.operator .times) ∧ rest.head? ≠ some (.operator .over)

/-- What follows a sum does not continue it. -/
def EndsSum (rest : List Token) : Prop := rest = [] ∨ rest.head? = some .closing

theorem EndsSum.endsTerm {rest : List Token} (h : EndsSum rest) : EndsTerm rest := by
  rcases h with rfl | h
  · exact ⟨nofun, nofun, nofun⟩
  · refine ⟨?_, ?_, ?_⟩ <;> (try rw [EndsFactor]) <;> rw [h] <;> nofun

theorem endsTerm_sign (sign : Sign) (rest : List Token) :
    EndsTerm (.operator (signOperator sign) :: rest) := by
  cases sign with
  | plus => exact ⟨nofun, nofun, nofun⟩
  | minus => exact ⟨nofun, nofun, nofun⟩

theorem extendTerm_of_ends (t : Term (Factor (Primary Atom))) {rest : List Token}
    (h : EndsTerm rest) : extendTerm t rest = some (t, rest) := by
  obtain ⟨-, ht, ho⟩ := h
  rw [extendTerm]
  · intro rest' e; exact ht (by rw [e]; rfl)
  · intro rest' e; exact ho (by rw [e]; rfl)

theorem extendSum_of_ends (s : Tree Atom) {rest : List Token} (h : EndsSum rest) :
    extendSum s rest = some (s, rest) := by
  rw [extendSum]
  all_goals
    rintro rest' rfl
    rcases h with h | h <;> simp at h

mutual

theorem readPrimary_tokens (p : Primary Atom) (rest : List Token) :
    readPrimary (p.tokens ++ rest) = some (p, rest) := by
  cases p with
  | leaf a => rw [Primary.tokens, List.singleton_append, readPrimary]
  | group s =>
    have h : EndsSum (.closing :: rest) := .inr rfl
    rw [Primary.tokens, List.cons_append, List.append_assoc, List.singleton_append, readPrimary,
      readSum_tokens s h.endsTerm, extendSum_of_ends s h]
    rfl

theorem readFactor_tokens (f : Factor (Primary Atom)) {rest : List Token} (h : EndsFactor rest) :
    readFactor (f.tokens ++ rest) = some (f, rest) := by
  cases f with
  | operand p =>
    rw [Factor.tokens, readFactor, readPrimary_tokens p rest]
    simp only [Option.bind_eq_bind, Option.bind_some]
    split
    · exact absurd rfl h
    · rfl
  | power p negated f =>
    rw [Factor.tokens, List.append_assoc, List.cons_append, List.append_assoc, readFactor,
      readPrimary_tokens p]
    simp only [Option.bind_eq_bind, Option.bind_some, (f.begins.append rest).takeMinus,
      readFactor_tokens f h]
    rw [if_pos]
    have := p.begins.length_lt (.operator .caret :: (minusIf negated ++ (f.tokens ++ rest)))
    rw [List.length_cons] at this
    omega

theorem readTerm_tokens (t : Term (Factor (Primary Atom))) {rest : List Token}
    (h : EndsFactor rest) : readTerm (t.tokens ++ rest) = extendTerm t rest := by
  cases t with
  | factor f =>
    rw [Term.tokens, readTerm, readFactor_tokens f h]
    simp only [Option.bind_eq_bind, Option.bind_some]
    rw [if_pos (f.begins.length_lt rest)]
  | multiply t negated f =>
    rw [Term.tokens, List.append_assoc, List.cons_append, List.append_assoc,
      readTerm_tokens t (by simp [EndsFactor]), extendTerm]
    simp only [Option.bind_eq_bind, (f.begins.append rest).takeMinus, readFactor_tokens f h,
      Option.bind_some]
    rw [if_pos]
    have := f.begins.length_lt rest
    rw [List.length_append]
    omega
  | divide t negated f =>
    rw [Term.tokens, List.append_assoc, List.cons_append, List.append_assoc,
      readTerm_tokens t (by simp [EndsFactor]), extendTerm]
    simp only [Option.bind_eq_bind, (f.begins.append rest).takeMinus, readFactor_tokens f h,
      Option.bind_some]
    rw [if_pos]
    have := f.begins.length_lt rest
    rw [List.length_append]
    omega

theorem readSum_tokens (s : Tree Atom) {rest : List Token} (h : EndsTerm rest) :
    readSum (Tree.tokens s ++ rest) = extendSum s rest := by
  cases s with
  | term negated t =>
    rw [Tree.tokens, List.append_assoc, readSum]
    simp only [Option.bind_eq_bind, (t.begins.append rest).takeMinus, readTerm_tokens t h.1,
      extendTerm_of_ends t h, Option.bind_some]
    rw [if_pos]
    have := t.begins.length_lt rest
    rw [List.length_append]
    omega
  | add s sign t =>
    have hl := t.begins.length_lt rest
    rw [Tree.tokens, List.append_assoc, List.cons_append, readSum_tokens s (endsTerm_sign _ _)]
    cases sign with
    | plus =>
      rw [signOperator, extendSum]
      simp only [Option.bind_eq_bind, readTerm_tokens t h.1, extendTerm_of_ends t h,
        Option.bind_some, if_pos hl]
    | minus =>
      rw [signOperator, extendSum]
      simp only [Option.bind_eq_bind, readTerm_tokens t h.1, extendTerm_of_ends t h,
        Option.bind_some, if_pos hl]

end

/-- **Recursive descent finds every tree.** -/
theorem read?_tokens (s : Tree Atom) : Tree.read? (Tree.tokens s) = some s := by
  have h : EndsSum [] := .inl rfl
  have hr := readSum_tokens s h.endsTerm
  rw [List.append_nil, extendSum_of_ends s h] at hr
  rw [Tree.read?, hr]

end ExactAlgebra.Grammar
