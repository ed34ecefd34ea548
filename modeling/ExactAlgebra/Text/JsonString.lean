import ExactAlgebra.Text.Hex

/-!
# Strings of a JSON text

A string is written in ASCII: quotes, backslashes and all characters outside the printable ASCII
range are escaped, beyond the basic plane as a pair of surrogates.

* `jsonString_of_plain`: a text without such characters is written as it is.
-/

namespace ExactAlgebra.Text

def unitEscape (n : Nat) : List Char := '\\' :: 'u' :: hexDigits 4 n

def jsonChar (c : Char) : List Char :=
  if c = '"' ∨ c = '\\' then ['\\', c]
  else if c = '\n' then ['\\', 'n']
  else if c = '\r' then ['\\', 'r']
  else if c = '\t' then ['\\', 't']
  else if c.toNat = 12 then ['\\', 'f']
  else if c.toNat = 8 then ['\\', 'b']
  else if 32 ≤ c.toNat ∧ c.toNat ≤ 126 then [c]
  else if c.toNat < 0x10000 then unitEscape c.toNat
  else
    let offset := c.toNat - 0x10000
    unitEscape (0xd800 + offset / 0x400) ++ unitEscape (0xdc00 + offset % 0x400)

def jsonString (text : List Char) : List Char := '"' :: text.flatMap jsonChar ++ ['"']

def isJsonPlain (c : Char) : Bool := c != '"' && c != '\\' && 32 ≤ c.toNat && c.toNat ≤ 126

theorem jsonChar_of_plain {c : Char} (h : isJsonPlain c) : jsonChar c = [c] := by
  simp only [isJsonPlain, Bool.and_eq_true, bne_iff_ne, decide_eq_true_eq] at h
  obtain ⟨⟨⟨quote, backslash⟩, low⟩, high⟩ := h
  have newline : c ≠ '\n' := by rintro rfl; simp at low
  have carriage : c ≠ '\r' := by rintro rfl; simp at low
  have tab : c ≠ '\t' := by rintro rfl; simp at low
  have : c.toNat ≠ 12 := by omega
  have : c.toNat ≠ 8 := by omega
  simp [jsonChar, *]

theorem jsonString_of_plain {text : List Char} (h : text.all isJsonPlain) :
    jsonString text = '"' :: text ++ ['"'] := by
  have body : text.flatMap jsonChar = text := by
    induction text with
    | nil => rfl
    | cons c text ih =>
      simp only [List.all_cons, Bool.and_eq_true] at h
      simp [jsonChar_of_plain h.1, ih h.2]
  simp [jsonString, body]

end ExactAlgebra.Text
