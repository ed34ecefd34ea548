import ExactAlgebra.Text.Letter
import ExactAlgebra.TextFault
import ExactAlgebra.Token

/-!
# From text to tokens

A text without its blanks is cut into raw tokens, the longest numeral first.  The raw tokens are
then put in normal form: a multiplication is inserted where two operands touch, runs of signs are
folded, and brackets left open are closed at the end.

* `Token.scan`: the raw tokens of a text without blanks.
* `Normalizer.step`: what one raw token adds to the normal form.
* `tokenize`: the normal form of a text, or the first fault.
-/

namespace ExactAlgebra

namespace Token

/-- The raw tokens of a text.  The first `skip` characters belong to the numeral that has just been
read; `position` is the position of the first character of the text. -/
def scanFrom (skip position : Nat) : List Char → Except TextFault (List Token)
  | [] => .ok []
  | c :: text =>
    match skip with
    | skip + 1 => scanFrom skip (position + 1) text
    | 0 =>
      if c.isDigit || c == '.' then
        let n := Numeral.span (c :: text)
        if n.digits = [] then .error (.malformedNumber ".")
        else do return .atom (.number n) :: (← scanFrom (n.chars.length - 1) (position + 1) text)
      else if c = '(' then do return .opening :: (← scanFrom 0 (position + 1) text)
      else if c = ')' then do return .closing :: (← scanFrom 0 (position + 1) text)
      else
        match Operator.ofChar? c with
        | some o => do return .operator o :: (← scanFrom 0 (position + 1) text)
        | none =>
          if Text.isLetter c then do
            return .atom (.variable c) :: (← scanFrom 0 (position + 1) text)
          else .error (.illegalCharacter c position)

/-- The raw tokens of a text without blanks. -/
def scan (text : List Char) : Except TextFault (List Token) := scanFrom 0 0 text

end Token

/-- A token list on its way to normal form: the normal form so far, its last token first, the number
of open brackets, and the raw token read last. -/
structure Normalizer where
  output : List Token
  depth : Nat
  previous : Option Token

namespace Normalizer

def empty : Normalizer := ⟨[], 0, none⟩

/-- The normal form so far ends with an operand. -/
def afterOperand (s : Normalizer) : Bool := s.output.head?.any Token.endsOperand

/-- The normal form with a multiplication at its end if an operand would touch another one. -/
def outputForOperand (s : Normalizer) : List Token :=
  if s.afterOperand then .operator .times :: s.output else s.output

/-- The normal form after a minus: it replaces a plus, and cancels another minus, which leaves a
plus between two operands and nothing elsewhere. -/
def outputForMinus (s : Normalizer) : List Token :=
  match s.output with
  | .operator .plus :: output => .operator .minus :: output
  | .operator .minus :: output =>
    if output.head?.any Token.endsOperand then .operator .plus :: output else output
  | output => .operator .minus :: output

/-- What one raw token adds to the normal form. -/
def step (source : String) (s : Normalizer) (token : Token) : Except TextFault Normalizer :=
  match token with
  | .atom (.number n) =>
    match s.output with
    | .atom (.number before) :: _ =>
      .error (.malformedNumber (String.ofList (before.chars ++ n.chars)))
    | _ => .ok ⟨token :: s.outputForOperand, s.depth, some token⟩
  | .atom (.variable _) => .ok ⟨token :: s.outputForOperand, s.depth, some token⟩
  | .opening => .ok ⟨token :: s.outputForOperand, s.depth + 1, some token⟩
  | .closing =>
    if s.depth = 0 then .error (.mismatchedBrackets source)
    else if s.previous = some .opening then .error (.emptyBrackets source)
    else if s.afterOperand then .ok ⟨token :: s.output, s.depth - 1, some token⟩
    else .error (.danglingOperator source)
  | .operator .plus =>
    .ok ⟨if s.afterOperand then token :: s.output else s.output, s.depth, some token⟩
  | .operator .minus => .ok ⟨s.outputForMinus, s.depth, some token⟩
  | .operator _ =>
    if s.afterOperand then .ok ⟨token :: s.output, s.depth, some token⟩
    else .error (.danglingOperator source)

/-- The normal form at the end of the text, with open brackets closed. -/
def finish (source : String) (s : Normalizer) : Except TextFault (List Token) :=
  match s.output with
  | [] => .error (.danglingOperator source)
  | .opening :: _ => .error (.mismatchedBrackets source)
  | last :: _ =>
    if last.endsOperand then .ok (s.output.reverse ++ List.replicate s.depth .closing)
    else .error (.danglingOperator source)

def normalize (source : String) (tokens : List Token) : Except TextFault (List Token) := do
  (← tokens.foldlM (step source) empty).finish source

/-- The normal form is built token by token. -/
theorem foldlM_cons_eq_ok {source : String} {token : Token} {tokens : List Token}
    {s s' : Normalizer} (h : (token :: tokens).foldlM (step source) s = .ok s') :
    ∃ s₁, s.step source token = .ok s₁ ∧ tokens.foldlM (step source) s₁ = .ok s' := by
  rw [List.foldlM_cons] at h
  cases hstep : s.step source token with
  | error e => rw [hstep] at h; exact nomatch h
  | ok s₁ => rw [hstep] at h; exact ⟨s₁, rfl, h⟩

end Normalizer

/-- The tokens of a text in normal form. -/
def tokenize (source : String) : Except TextFault (List Token) := do
  Normalizer.normalize source (← Token.scan (Text.dropBlanks source.toList))

/-- A text has tokens if its raw tokens have a normal form. -/
theorem tokenize_eq_ok {source : String} {tokens : List Token} (h : tokenize source = .ok tokens) :
    ∃ raw, Token.scan (Text.dropBlanks source.toList) = .ok raw ∧
      Normalizer.normalize source raw = .ok tokens := by
  rw [tokenize] at h
  cases hscan : Token.scan (Text.dropBlanks source.toList) with
  | error e => rw [hscan] at h; exact nomatch h
  | ok raw => rw [hscan] at h; exact ⟨raw, rfl, h⟩

end ExactAlgebra
