import ExactAlgebra.Text.CharRange

/-!
# Blank characters

The blanks are the characters that separate lines, words or columns: the control characters from
tab to carriage return and from file to unit separator, the next-line character, and the Unicode
spaces and separators.  A zero-width space is none.

* `isBlank_of_isWhitespace`: what the core library calls whitespace is blank.
* `trim_eq_nil_iff`: a text is trimmed away exactly if it holds blanks only.
-/

namespace ExactAlgebra.Text

def blankRanges : List (Nat × Nat) :=
  [(0x9, 0xd), (0x1c, 0x20), (0x85, 0x85), (0xa0, 0xa0), (0x1680, 0x1680), (0x2000, 0x200a),
    (0x2028, 0x2029), (0x202f, 0x202f), (0x205f, 0x205f), (0x3000, 0x3000)]

def isBlank (c : Char) : Bool := inRanges blankRanges c.toNat

theorem isBlank_of_isWhitespace {c : Char} (h : c.isWhitespace) : isBlank c := by
  simp only [Char.isWhitespace, Bool.or_eq_true, decide_eq_true_eq] at h
  rcases h with ((rfl | rfl) | rfl) | rfl <;> decide

def dropBlanks (text : List Char) : List Char := text.filter (!isBlank ·)

def trimEnd : List Char → List Char
  | [] => []
  | c :: text =>
    match trimEnd text with
    | [] => if isBlank c then [] else [c]
    | rest => c :: rest

def trim (text : List Char) : List Char := trimEnd (text.dropWhile isBlank)

theorem trimEnd_eq_nil_iff {text : List Char} : trimEnd text = [] ↔ text.all isBlank := by
  induction text with
  | nil => simp [trimEnd]
  | cons c text ih =>
    rw [trimEnd]
    cases hs : trimEnd text with
    | nil => by_cases hc : isBlank c <;> simp_all
    | cons d rest =>
      have : text.all isBlank = false := by
        rw [← Bool.not_eq_true, ← ih, hs]; simp
      simp [this]

theorem trim_eq_nil_iff {text : List Char} : trim text = [] ↔ text.all isBlank := by
  rw [trim, trimEnd_eq_nil_iff]
  induction text with
  | nil => simp
  | cons c text ih => by_cases hc : isBlank c <;> simp_all

end ExactAlgebra.Text
