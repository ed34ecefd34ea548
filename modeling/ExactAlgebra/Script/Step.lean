import ExactAlgebra.Expr.Operators
import ExactAlgebra.Value

/-!
# Steps of a script

A script is a list of operations on values.  A step takes its operands as they are written or from
the results of earlier steps.

* `Step`: the operations.
* `Part`, `Method`: what can be asked of an expression.
-/

namespace ExactAlgebra.Script

/-- A value in a step: written out, or the result of an earlier step. -/
inductive Source where
  | literal (v : Value)
  | result (step : Nat)

inductive Unary where
  | negative
  | positive
  | magnitude
  | truth
  | integer
  | float
  | description
  | negate
  | promote
  | simplify
  deriving DecidableEq

inductive Part where
  | numerator
  | denominator
  | name
  | base
  | exponent
  | coefficient
  | factors
  | terms
  | constant
  | summands
  | height
  deriving DecidableEq

def Part.names : List (String × Part) :=
  [("numerator", .numerator), ("denominator", .denominator), ("name", .name), ("base", .base),
    ("exponent", .exponent), ("coefficient", .coefficient), ("factors", .factors),
    ("terms", .terms), ("constant", .constant), ("summands", .summands), ("height", .height)]

inductive Method where
  | arithmetic (op : Arithmetic)
  | negate
  | reciprocal
  | isInteger
  | signum
  | split
  deriving DecidableEq

def Method.names : List (String × Method) :=
  [("add", .arithmetic .add), ("subtract", .arithmetic .subtract),
    ("multiply", .arithmetic .multiply), ("divide", .arithmetic .divide),
    ("pow", .arithmetic .power), ("negate", .negate), ("reciprocal", .reciprocal),
    ("is_integer", .isInteger), ("signum", .signum), ("split", .split)]

def constants : List (String × Num) :=
  [("ZERO", .zero), ("ONE", .one), ("TWO", .two), ("TEN", .ten), ("NEGATIVE_ONE", .negativeOne)]

def lookup {α : Type} (table : List (String × α)) (name : String) : Option α :=
  (table.find? (·.1 == name)).map Prod.snd

/-- Values by name, as they are written in a step. -/
abbrev Pairs (α : Type) := List (String × α)

/-- An operation on values of type `α`. -/
inductive Step (α : Type) where
  | parse (text : String) (limit : Int)
  | number (text : String)
  | variable (name : α)
  | rational (args : List α)
  | constant (n : Num)
  | arithmetic (op : Arithmetic) (a b : α)
  | compare (relation : Relation) (a b : α)
  /-- The order of two bases in a product. -/
  | compareBases (a b : α)
  /-- The order of two terms in a sum. -/
  | compareTerms (a b : α)
  | ofPower (base exponent : α)
  /-- A sum of operands, each with the integer whose sign it takes, or with none for a plus. -/
  | ofSum (addends : List (α × Option Int))
  | ofProduct (factors divisors : List α)
  | unary (op : Unary) (a : α)
  /-- Values for variables; with `overwrite` a later binding of a name replaces an earlier one. -/
  | evaluate (a : α) (bindings : Pairs α) (overwrite : Bool) (values : Pairs α)
  | format (a style : α)
  /-- A part by its name, if there is one of that name. -/
  | get (a : α) (part : Option Part)
  /-- One side of an entry of a part. -/
  | entry (a : α) (part : Option Part) (index side : Int)
  | call (a : α) (method : Option Method) (args : List α)

/-- The operation with its operands looked up; nothing if one of them is missing. -/
def Step.mapM? {α β : Type} (f : α → Option β) : Step α → Option (Step β)
  | .parse text limit => some (.parse text limit)
  | .number text => some (.number text)
  | .variable name => do return .variable (← f name)
  | .rational args => do return .rational (← args.mapM f)
  | .constant n => some (.constant n)
  | .arithmetic op a b => do return .arithmetic op (← f a) (← f b)
  | .compare relation a b => do return .compare relation (← f a) (← f b)
  | .compareBases a b => do return .compareBases (← f a) (← f b)
  | .compareTerms a b => do return .compareTerms (← f a) (← f b)
  | .ofPower base exponent => do return .ofPower (← f base) (← f exponent)
  | .ofSum addends => do return .ofSum (← addends.mapM fun (a, sign) => do return (← f a, sign))
  | .ofProduct factors divisors => do return .ofProduct (← factors.mapM f) (← divisors.mapM f)
  | .unary op a => do return .unary op (← f a)
  | .evaluate a bindings overwrite values => do
    return .evaluate (← f a) (← bindings.mapM fun (name, v) => do return (name, ← f v)) overwrite
      (← values.mapM fun (name, v) => do return (name, ← f v))
  | .format a style => do return .format (← f a) (← f style)
  | .get a part => do return .get (← f a) part
  | .entry a part index side => do return .entry (← f a) part index side
  | .call a method args => do return .call (← f a) method (← args.mapM f)

end ExactAlgebra.Script
