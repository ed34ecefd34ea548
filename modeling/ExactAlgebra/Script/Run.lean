import ExactAlgebra.Script.Operation

/-!
# Running a script

The steps of a script are carried out one after the other, all of them drawing ages from one supply.
A step that fails gives no result, and a step that needs a missing result is skipped.

* `Step.perform`: the result of one step.
* `Script.run`: the answers of all steps.
-/

namespace ExactAlgebra

def Script.Step.perform : Script.Step Value → Script.Run Value
  | .parse text limit => do return .expr (← build (Expr.parse limit text))
  | .number text => do return .ofNum (← build (Num.parse text))
  | .variable (.text name) =>
    if name.isEmpty then throw (.illegalName (Text.quoted name)) else return .expr (.var name)
  | .variable v => throw (.illegalName v.shown)
  | .rational args => do
    let (n, d) ← quotientOf args
    return .ofNum (← build (Num.ofFraction n d))
  | .constant n => return .ofNum n
  | .arithmetic op a b => Script.arithmetic op a b
  | .compare relation a b => return .bool (← Script.compare relation a b)
  | .compareBases a b => orderOf Expr.compareBases a b
  | .compareTerms a b => orderOf Expr.compareTerms a b
  | .ofPower base exponent => do
    let base ← promote base
    return .expr (← build (base.ofPower (← promote exponent)))
  | .ofSum addends => do return .expr (← build (Expr.ofSum (← addends.mapM signedTerm)))
  | .ofProduct factors divisors => do return .expr (← product factors divisors)
  | .unary op a => Script.unary op a
  | .evaluate (.expr e) bindings overwrite values => do
    if values.any fun (name, _) => reservedNames.contains name then throw .operandKind
    return .expr (← Script.evaluate e bindings overwrite values)
  | .evaluate .. => throw .noSuchPart
  | .format (.expr e) style => do return .text (e.format (← Script.style style))
  | .format .. => throw .noSuchPart
  | .get a part => Script.get a part
  | .entry a part index side => do item (← item (← Script.get a part) index) side
  | .call a method args => Script.call a method args

namespace Script

/-! ## Scripts -/

inductive Answer where
  | value (v : Value)
  | fault (f : Fault)
  | skipped

def Source.value? (answers : Array Answer) : Source → Option Value
  | .literal v => some v
  | .result step =>
    match answers[step]? with
    | some (.value v) => some v
    | _ => none

/-- The answers of the steps after those that are already answered. -/
def runFrom (supply : Supply) (answers : Array Answer) : List (Step Source) → List Answer
  | [] => answers.toList
  | step :: steps =>
    match step.mapM? (Source.value? answers) with
    | none => runFrom supply (answers.push .skipped) steps
    | some step =>
      match step.perform supply with
      | .ok (v, supply) => runFrom supply (answers.push (.value v)) steps
      | .error fault => runFrom supply (answers.push (.fault fault)) steps

def run (steps : List (Step Source)) : List Answer := runFrom Supply.initial #[] steps

end Script

end ExactAlgebra
