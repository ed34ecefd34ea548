import ExactAlgebra.Token.Lexer
import Mathlib.Data.List.Chain
import Mathlib.Data.List.TakeWhile

/-!
# What the scanner and the normal form let pass

The raw tokens of a text are the text cut into pieces, each of which is properly written.  Raw
tokens that have a normal form hold no two numerals side by side, and the number of brackets that
they leave open is the one that the normal form closes.

* `Numeral.Proper`, `Token.Proper`: tokens that are properly written.
* `Token.scan_eq_ok`: the raw tokens of a text.
* `Normalizer.isChain_apart`, `Normalizer.depth_add`: raw tokens that have a normal form.
-/

namespace ExactAlgebra

/-! ## Numerals -/

namespace Numeral

/-- The numeral has a digit, and all its characters are digits, its point not counted. -/
structure Proper (n : Numeral) : Prop where
  whole : ∀ c ∈ n.whole, c.isDigit = true
  fraction : ∀ c ∈ n.fraction.getD [], c.isDigit = true
  digits : n.digits ≠ []

theorem span_proper {text : List Char} (h : (span text).digits ≠ []) : (span text).Proper := by
  refine ⟨fun c hc => ?_, fun c hc => ?_, h⟩
  · unfold span at hc
    split at hc <;> exact List.mem_takeWhile_imp hc
  · unfold span at hc
    split at hc
    next => exact List.mem_takeWhile_imp hc
    next => exact nomatch hc

theorem Proper.chars_ne_nil {n : Numeral} (h : n.Proper) : n.chars ≠ [] := by
  intro hc
  refine h.digits ?_
  unfold chars at hc
  split at hc
  next hf => rw [Numeral.digits, hc, hf]; rfl
  next => exact absurd hc (by simp)

/-- The characters of a proper numeral are digits and points. -/
theorem Proper.isDigit_or {n : Numeral} (h : n.Proper) {c : Char} (hc : c ∈ n.chars) :
    c.isDigit = true ∨ c = '.' := by
  unfold chars at hc
  split at hc
  next => exact .inl (h.whole c hc)
  next fraction hf =>
    rcases List.mem_append.mp hc with hc | hc
    · exact .inl (h.whole c hc)
    · rcases List.mem_cons.mp hc with rfl | hc
      · exact .inr rfl
      · exact .inl (h.fraction c (by rw [hf]; exact hc))

/-- A run of digits is taken up to what is no digit. -/
theorem takeWhile_digits {digits rest : List Char} (hd : ∀ c ∈ digits, c.isDigit = true)
    (hr : ∀ c, rest.head? = some c → c.isDigit = false) :
    (digits ++ rest).takeWhile Char.isDigit = digits ∧
      (digits ++ rest).dropWhile Char.isDigit = rest := by
  rw [List.takeWhile_append_of_pos hd, List.dropWhile_append_of_pos hd]
  cases rest with
  | nil => exact ⟨List.append_nil _, rfl⟩
  | cons c rest =>
    have hc : ¬ c.isDigit = true := by rw [hr c rfl]; exact nofun
    rw [List.takeWhile_cons_of_neg hc, List.dropWhile_cons_of_neg hc, List.append_nil]
    exact ⟨rfl, rfl⟩

/-- A numeral at the beginning of a text, and what follows it. -/
theorem Proper.chars_append_drop {c : Char} {text : List Char} (h : (span (c :: text)).Proper) :
    (span (c :: text)).chars ++ text.drop ((span (c :: text)).chars.length - 1) = c :: text := by
  obtain ⟨after, hafter⟩ := chars_span_isPrefix (c :: text)
  obtain ⟨d, ds, hd⟩ := List.exists_cons_of_ne_nil h.chars_ne_nil
  rw [hd, List.cons_append] at hafter
  obtain ⟨rfl, rfl⟩ := List.cons.inj hafter
  rw [hd, List.length_cons, Nat.add_sub_cancel, List.drop_left, List.cons_append]

end Numeral

/-! ## Scanning -/

namespace Token

def Proper : Token → Prop
  | .atom (.number n) => n.Proper
  | .atom (.variable name) => Text.isLetter name = true
  | _ => True

/-- The raw tokens are the text in pieces, each of them properly written. -/
def Pieces (text : List Char) (raw : List Token) : Prop :=
  raw.flatMap chars = text ∧ ∀ t ∈ raw, t.Proper

/-- One more piece in front of the others. -/
theorem pieces_cons {m : Except TextFault (List Token)} {t : Token} {raw : List Token}
    {text rest : List Char} (h : (do return t :: (← m)) = Except.ok raw)
    (hm : ∀ {raw'}, m = .ok raw' → Pieces rest raw') (ht : t.chars ++ rest = text)
    (hp : t.Proper) : Pieces text raw := by
  cases m with
  | error e => exact nomatch h
  | ok raw' =>
    obtain rfl := Except.ok.inj h
    obtain ⟨htext, hproper⟩ := hm rfl
    refine ⟨?_, List.forall_mem_cons.mpr ⟨hp, hproper⟩⟩
    rw [List.flatMap_cons, htext, ht]

theorem scanFrom_eq_ok {text : List Char} {skip position : Nat} {raw : List Token}
    (h : scanFrom skip position text = .ok raw) : Pieces (text.drop skip) raw := by
  induction text generalizing skip position raw with
  | nil =>
    cases h
    exact ⟨List.drop_nil.symm, nofun⟩
  | cons c text ih =>
    cases skip with
    | succ skip => exact ih h
    | zero =>
      rw [scanFrom] at h
      split at h
      next =>
        simp only at h
        split at h
        next => exact nomatch h
        next hdigits =>
          have hspan := Numeral.span_proper hdigits
          exact pieces_cons h ih hspan.chars_append_drop hspan
      next =>
        split at h
        next hc => subst hc; exact pieces_cons h ih rfl trivial
        next =>
          split at h
          next hc => subst hc; exact pieces_cons h ih rfl trivial
          next =>
            split at h
            next o ho =>
              have hchar := Operator.ofChar?_eq_some_iff.mp ho
              exact pieces_cons h ih (by rw [chars, hchar]; rfl) trivial
            next =>
              split at h
              next hc => exact pieces_cons h ih rfl hc
              next => exact nomatch h

/-- **The raw tokens of a text** are the text in proper pieces. -/
theorem scan_eq_ok {text : List Char} {raw : List Token} (h : scan text = .ok raw) :
    raw.flatMap chars = text ∧ ∀ t ∈ raw, t.Proper := scanFrom_eq_ok h

/-- The two tokens are not both numerals. -/
def Apart (t t' : Token) : Prop := ∀ n n', t = .atom (.number n) → t' ≠ .atom (.number n')

end Token

/-! ## Normal forms -/

namespace Normalizer

variable {source : String}

/-- After a numeral, the normal form ends with it. -/
theorem step_number {σ σ' : Normalizer} {n : Numeral}
    (h : σ.step source (.atom (.number n)) = .ok σ') :
    (∀ m, σ.output.head? ≠ some (.atom (.number m))) ∧
      σ'.output.head? = some (.atom (.number n)) := by
  rw [step] at h
  split at h
  · exact nomatch h
  next hne =>
    cases h
    refine ⟨fun m hm => ?_, rfl⟩
    obtain ⟨output, houtput⟩ := List.head?_eq_some_iff.mp hm
    exact hne m output houtput

/-- Numerals do not stand side by side. -/
theorem isChain_apart {raw : List Token} {σ σ' : Normalizer}
    (h : raw.foldlM (step source) σ = .ok σ') :
    raw.IsChain Token.Apart ∧ ∀ n m, σ.output.head? = some (.atom (.number n)) →
      raw.head? ≠ some (.atom (.number m)) := by
  induction raw generalizing σ with
  | nil => exact ⟨.nil, nofun⟩
  | cons t raw ih =>
    obtain ⟨σ₁, hstep, hrest⟩ := foldlM_cons_eq_ok h
    obtain ⟨hchain, hhead⟩ := ih hrest
    refine ⟨?_, ?_⟩
    · refine List.isChain_cons.mpr ⟨fun t' ht' n n' hn hn' => ?_, hchain⟩
      subst hn hn'
      exact hhead n n' (step_number hstep).2 ht'
    · intro n m hn hm
      obtain rfl := Option.some.inj hm
      exact (step_number hstep).1 n hn

/-- An opening bracket adds to the depth and a closing one takes from it. -/
theorem depth_step {σ σ' : Normalizer} {t : Token} (h : σ.step source t = .ok σ') :
    σ'.depth + [t].count .closing = σ.depth + [t].count .opening := by
  cases t with
  | atom a =>
    cases a with
    | number n =>
      rw [step] at h
      split at h
      · exact nomatch h
      · cases h; rfl
    | _ name => cases h; rfl
  | opening => cases h; rfl
  | closing =>
    rw [step] at h
    split at h
    · exact nomatch h
    next hdepth =>
      split at h
      · exact nomatch h
      · split at h
        next => cases h; exact Nat.sub_add_cancel (Nat.one_le_iff_ne_zero.mpr hdepth)
        next => exact nomatch h
  | operator o =>
    cases o with
    | plus | minus => cases h; rfl
    | _ =>
      change (if σ.afterOperand then Except.ok _ else Except.error _) = _ at h
      split at h
      next => cases h; rfl
      next => exact nomatch h

/-- The depth is the number of brackets that are still open. -/
theorem depth_add {raw : List Token} {σ σ' : Normalizer}
    (h : raw.foldlM (step source) σ = .ok σ') :
    σ'.depth + raw.count .closing = σ.depth + raw.count .opening := by
  induction raw generalizing σ with
  | nil => cases h; rfl
  | cons t raw ih =>
    obtain ⟨σ₁, hstep, hrest⟩ := foldlM_cons_eq_ok h
    have h₁ := ih hrest
    have h₂ := depth_step hstep
    rw [← List.singleton_append, List.count_append, List.count_append]
    omega

end Normalizer

end ExactAlgebra
