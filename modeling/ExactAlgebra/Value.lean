import ExactAlgebra.Binary64.Text
import ExactAlgebra.Expr.Canonical
import ExactAlgebra.Expr.Print
import ExactAlgebra.Ordered
import ExactAlgebra.Text.Quoted

/-!
# Values

A caller may hand in more than expressions: integers, fractions and truth values stand for exact
numbers, texts for names, styles and expressions still to be read.  Inexact numbers are never
accepted as operands.

* `Value.number?`: the exact number for which a value stands.
* `Value.shown`: how a message shows a value.
-/

namespace ExactAlgebra

inductive Value where
  | expr (e : Expr)
  | int (n : Int)
  | fraction (q : Rat)
  | bool (b : Bool)
  /-- An inexact number by the bits of its binary64 form. -/
  | binary (bits : Nat)
  | text (s : String)
  | none
  | tuple (items : List Value)

namespace Value

instance : Inhabited Value := ⟨.none⟩

def ofNum (n : Num) : Value := .expr (.num n)

def isFraction : Value → Bool
  | .fraction _ => true
  | _ => false

/-- The exact number for which a value other than an expression stands. -/
def number? : Value → Option Rat
  | .int n => some n
  | .fraction q => some q
  | .bool b => some (if b then 1 else 0)
  | _ => Option.none

def rational? : Value → Option Rat
  | .expr (.num n) => some n.value
  | v => v.number?

def ratio? : Value → Option Ratio
  | .expr (.num n) => some n.toRatio
  | v => v.number?.map .ofRat

/-- The finite number for which a value other than an expression stands, exact or inexact. -/
def finite? : Value → Option Rat
  | .binary bits => Binary64.value? bits
  | v => v.number?

/-- The integer for which an integer or a truth value stands. -/
def integer? : Value → Option Int
  | .int n => some n
  | .bool b => some (if b then 1 else 0)
  | _ => Option.none

/-- The expression that a value is; an exact number becomes a new node. -/
def promote? : Value → Option (Build Expr)
  | .expr e => some (pure e)
  | v => v.number?.map fun q => do return .num (← Num.ofFraction q.num q.den)

/-- The full name of the kind of an expression, with its text in brackets. -/
def describe (e : Expr) : String := "core.symbolic." ++ e.kind ++ "(" ++ e.text ++ ")"

/-- How a message shows a numerator and a denominator. -/
def fractionShown (n d : Int) : String :=
  "Fraction(" ++ ratText n ++ ", " ++ ratText d ++ ")"

mutual

def shown : Value → String
  | .expr e => describe e
  | .int n => ratText n
  | .fraction q => fractionShown q.num q.den
  | .bool b => if b then "True" else "False"
  | .binary bits => Binary64.text bits
  | .text s => Text.quoted s
  | .none => "None"
  | .tuple [item] => "(" ++ item.shown ++ ",)"
  | .tuple items => "(" ++ String.intercalate ", " (shownAll items) ++ ")"

def shownAll : List Value → List String
  | [] => []
  | item :: items => item.shown :: shownAll items

end

/-! ## Comparison -/

mutual

/-- Equality: expressions by canonical form, numbers by value, texts by their characters and tuples
by their items.  An inexact number equals no expression. -/
def equal : Value → Value → Bool
  | .expr a, .expr b => a == b
  | .text a, .text b => a == b
  | .none, .none => true
  | .tuple items, .tuple others => equalAll items others
  | .expr (.num n), v => v.number?.any fun q => n.equals (.ofRat q)
  | v, .expr (.num n) => v.number?.any fun q => n.equals (.ofRat q)
  | .binary a, .binary b =>
    if Binary64.isFinite a then Binary64.value? a == Binary64.value? b
    else a == b && Binary64.isInfinite a
  | a, b =>
    match a.finite?, b.finite? with
    | some p, some q => p == q
    | _, _ => false

def equalAll : List Value → List Value → Bool
  | [], [] => true
  | a :: items, b :: others => a.equal b && equalAll items others
  | _, _ => false

end

/-- Whether two values are in a relation, if they are two numbers, two texts or two variables, which
go by their names.  An expression and an inexact number are not compared.  A number among
expressions answers for an exact number on its left, too. -/
def ordered? (relation : Script.Relation) : Value → Value → Option Bool
  | .expr (.num n), v => do return Ratio.ordered.holds relation n.toRatio (← v.ratio?)
  | v, .expr (.num n) => do return Ratio.ordered.holds relation.reflected n.toRatio (← v.ratio?)
  | .expr (.var a), .expr (.var b) => some (Ordered.texts.holds relation a b)
  | .text a, .text b => some (Ordered.texts.holds relation a b)
  | a, b => do return Ordered.numbers.holds relation (← a.finite?) (← b.finite?)

end Value

end ExactAlgebra
