import ExactAlgebra.Text.Hex
import ExactAlgebra.Text.Printable

/-!
# Quoted texts

A message shows a text between quotes, so that its ends and its unprintable characters can be seen.
Single quotes are used unless the text holds a single quote and no double quote.

* `quoted_of_plain`: a text of printable characters without quotes and backslashes is shown as
  it is, between single quotes.
-/

namespace ExactAlgebra.Text

def quoteMark (text : List Char) : Char :=
  if text.contains '\'' && !text.contains '"' then '"' else '\''

/-- How a character is shown between two marks. -/
def quoteChar (mark c : Char) : List Char :=
  if c = mark ∨ c = '\\' then ['\\', c]
  else if c = '\t' then ['\\', 't']
  else if c = '\n' then ['\\', 'n']
  else if c = '\r' then ['\\', 'r']
  else if isPrintable c then [c]
  else if c.toNat < 0x100 then '\\' :: 'x' :: hexDigits 2 c.toNat
  else if c.toNat < 0x10000 then '\\' :: 'u' :: hexDigits 4 c.toNat
  else '\\' :: 'U' :: hexDigits 8 c.toNat

def quotedChars (text : List Char) : List Char :=
  let mark := quoteMark text
  mark :: text.flatMap (quoteChar mark) ++ [mark]

def quoted (text : String) : String := String.ofList (quotedChars text.toList)

/-- The character needs no escape between single quotes. -/
def isPlain (c : Char) : Bool :=
  isPrintable c && c != '\'' && c != '\\' && c != '\t' && c != '\n' && c != '\r'

theorem quoteChar_of_plain {c : Char} (h : isPlain c) : quoteChar '\'' c = [c] := by
  simp only [isPlain, Bool.and_eq_true, bne_iff_ne] at h
  simp [quoteChar, h]

theorem quoted_of_plain {text : List Char} (h : text.all isPlain) :
    quotedChars text = '\'' :: text ++ ['\''] := by
  have mark : quoteMark text = '\'' := by
    have : text.contains '\'' = false := by
      rw [← Bool.not_eq_true, List.contains_iff_mem]
      intro hmem
      simpa [isPlain] using List.all_eq_true.1 h _ hmem
    simp only [quoteMark, this, Bool.false_and, Bool.false_eq_true, if_false]
  have body : text.flatMap (quoteChar '\'') = text := by
    clear mark
    induction text with
    | nil => rfl
    | cons c text ih =>
      simp only [List.all_cons, Bool.and_eq_true] at h
      simp [quoteChar_of_plain h.1, ih h.2]
  simp [quotedChars, mark, body]

end ExactAlgebra.Text
