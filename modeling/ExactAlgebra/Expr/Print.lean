import ExactAlgebra.Expr.Basic
import ExactAlgebra.Text.Digit

/-!
# Printed forms

An expression has three printed forms: plain text that the parser reads back, TeX markup, and a
function form that names the nodes of the canonical tree.

* `Style.ofName?`: the names of the three styles.
* `Expr.markup`: the text form and the TeX form, with brackets only where they are needed.
* `Expr.functionForm`: the nested form that shows the structure.
* `Expr.format`: the form of a style.
-/

namespace ExactAlgebra

/-- The form of plain text or markup. -/
inductive Markup where
  | text
  | tex
  deriving DecidableEq

inductive Style where
  | markup (m : Markup)
  | function
  deriving DecidableEq

namespace Style

def text : Style := .markup .text
def tex : Style := .markup .tex

def names : List (String × Style) :=
  [("function", .function), ("latex", .tex), ("tex", .tex), ("text", .text)]

/-- The style of a name, whatever its case. -/
def ofName? (name : String) : Option Style :=
  (names.find? (·.1 == String.ofList (name.toList.map Char.toLower))).map Prod.snd

end Style

namespace Markup

def group : Markup → List Char → List Char
  | .text, inner => '(' :: inner ++ [')']
  | .tex, inner => "\\left(".toList ++ inner ++ "\\right)".toList

/-- What keeps two neighbouring digits apart. -/
def separator : Markup → List Char
  | .text => ['*']
  | .tex => "\\cdot ".toList

/-- The text ends with a digit of any kind. -/
def endsWithDigit (text : List Char) : Bool := text.getLast?.any Text.hasDigitValue

def beginsWithDigit (text : List Char) : Bool := text.head?.any Text.hasDigitValue

/-- Two parts of a product side by side, with a separator between two digits. -/
def join (m : Markup) (left right : List Char) : List Char :=
  if endsWithDigit left && beginsWithDigit right then left ++ m.separator ++ right
  else left ++ right

end Markup

/-! ## Numbers -/

def natDigits (n : Nat) : List Char := Nat.toDigits 10 n

def intDigits (n : Int) : List Char :=
  if n < 0 then '-' :: natDigits n.natAbs else natDigits n.natAbs

/-- A fraction in plain text: the denominator is written unless it is one. -/
def ratDigits (q : Rat) : List Char :=
  if q.den = 1 then intDigits q.num else intDigits q.num ++ '/' :: natDigits q.den

def ratText (q : Rat) : String := String.ofList (ratDigits q)

namespace Markup

/-- A number: an integer by its digits, any other fraction as the style writes fractions. -/
def number (m : Markup) (q : Rat) : List Char :=
  match m with
  | .text => ratDigits q
  | .tex =>
    if q.den = 1 then intDigits q.num
    else
      (if q < 0 then ['-'] else []) ++ "\\dfrac\x7b".toList ++ natDigits q.num.natAbs ++
        "\x7d\x7b".toList ++ natDigits q.den ++ ['}']

/-- A coefficient in front of a term: one is not written, minus one is a minus, and a fraction in
plain text stands in brackets. -/
def coefficient (m : Markup) (q : Rat) : List Char :=
  if q = 1 then []
  else if q = -1 then ['-']
  else
    let size := if q < 0 then -q else q
    let digits := m.number size
    (if q < 0 then ['-'] else []) ++
      (if size.den = 1 ∨ m = .tex then digits else '(' :: digits ++ [')'])

end Markup

/-! ## Expressions -/

namespace Expr

/-- As a base the expression needs no brackets: a variable or a natural number. -/
def isBareBase : Expr → Bool
  | .var _ => true
  | .num n => !n.isNegative && n.isInteger
  | _ => false

/-- As an exponent in plain text the expression needs no brackets: a variable or an integer. -/
def isBareExponent : Expr → Bool
  | .var _ => true
  | .num n => n.isInteger
  | _ => false

/-- A base raised to an exponent other than one, given the forms of both. -/
def powerMarkup (m : Markup) (base exponent : Expr) (baseForm exponentForm : List Char) :
    List Char :=
  let base := if base.isBareBase then baseForm else m.group baseForm
  match m with
  | .tex => base ++ ['^', '{'] ++ exponentForm ++ ['}']
  | .text =>
    base ++ '^' :: (if exponent.isBareExponent then exponentForm else m.group exponentForm)

/-- What stands before an entry of a sum that is not negative. -/
def plusBefore (before : List Char) (q : Rat) : List Char :=
  if !before.isEmpty && 0 ≤ q then before ++ ['+'] else before

mutual

def markup (m : Markup) : Expr → List Char
  | .num n => m.number n.value
  | .var name => name.toList
  | .power _ base exponent =>
    if exponent.isOne then base.markup m
    else powerMarkup m base exponent (base.markup m) (exponent.markup m)
  | .product _ c factors => factorsMarkup m (m.coefficient c.value) factors
  | .sum _ constant summands =>
    let terms := summandsMarkup m [] summands
    if constant.isZero then terms
    else plusBefore terms constant.value ++ m.number constant.value

/-- The entries of a product after what is already written. -/
def factorsMarkup (m : Markup) (before : List Char) : List (Expr × Expr) → List Char
  | [] => before
  | (base, exponent) :: factors =>
    let form :=
      if exponent.isOne then
        if base.isSum || base.isProduct then m.group (base.markup m) else base.markup m
      else powerMarkup m base exponent (base.markup m) (exponent.markup m)
    factorsMarkup m (m.join before form) factors

/-- The entries of a sum after what is already written. -/
def summandsMarkup (m : Markup) (before : List Char) : List (Expr × Num) → List Char
  | [] => before
  | (term, c) :: summands =>
    let form := if term.isSum then m.group (term.markup m) else term.markup m
    let before := plusBefore before c.value ++ m.coefficient c.value
    summandsMarkup m (m.join before form) summands

end

def entryForm (key value : List Char) : List Char := '{' :: key ++ [':', ' '] ++ value ++ ['}']

def commaSeparated : List (List Char) → List Char
  | [] => []
  | [entry] => entry
  | entry :: entries => entry ++ [',', ' '] ++ commaSeparated entries

mutual

/-- The nested form that names every node. -/
def functionForm : Expr → List Char
  | .num n => ratDigits n.value
  | .var name => name.toList
  | .power _ base exponent =>
    "Power(".toList ++ base.functionForm ++ [',', ' '] ++ exponent.functionForm ++ [')']
  | .product _ c factors =>
    "Product(".toList ++ ratDigits c.value ++ [',', ' '] ++
      commaSeparated (factorForms factors) ++ [')']
  | .sum _ constant summands =>
    "Sum(".toList ++
      commaSeparated (summandForms summands ++
        if constant.isZero then [] else [entryForm ['1'] (ratDigits constant.value)]) ++ [')']

def factorForms : List (Expr × Expr) → List (List Char)
  | [] => []
  | (base, exponent) :: factors =>
    entryForm base.functionForm exponent.functionForm :: factorForms factors

def summandForms : List (Expr × Num) → List (List Char)
  | [] => []
  | (term, c) :: summands =>
    entryForm term.functionForm (ratDigits c.value) :: summandForms summands

end

def format (style : Style) (e : Expr) : String :=
  match style with
  | .markup m => String.ofList (e.markup m)
  | .function => String.ofList e.functionForm

def text (e : Expr) : String := e.format .text

def kind : Expr → String
  | .num _ => "Rational"
  | .var _ => "Variable"
  | .power .. => "Power"
  | .product .. => "Product"
  | .sum .. => "Sum"

end Expr

end ExactAlgebra
