import ExactAlgebra.Console.Arguments
import ExactAlgebra.Expr.Evaluate
import ExactAlgebra.Expr.Parse
import ExactAlgebra.Expr.Simplify
import ExactAlgebra.Message

/-!
# The console

Every line holds one expression, which is read, simplified and evaluated as asked, and printed.  A
line that fails gives a line that says why, and does not keep the others from being worked on.

* `Console.process`: the output of one line.
* `Console.run`: the output of some lines and the number of failures.
-/

namespace ExactAlgebra.Console

/-- How lines are worked on.  The values of variables are texts, read anew for every line.  A
binding that is nothing has neither a name nor a value. -/
structure Task where
  bindings : List (Option (String × String))
  evaluate : Bool
  simplify : Bool
  style : Option String
  /-- The limit on nesting in a line. -/
  limit : Int
  /-- The limit on nesting in the value of a variable. -/
  bindingLimit : Int

inductive Problem where
  | fault (f : Fault)
  | unknownStyle (name : String)

def Problem.message : Problem → String
  | .fault f => f.message
  | .unknownStyle name => "Unknown formatting style " ++ Text.quoted name

/-- The problem concerns one line only, so that the next one can be worked on. -/
def Problem.isLocal : Problem → Bool
  | .fault .emptyBinding => false
  | .fault (.missingEntry _) => false
  | .fault .exhausted => false
  | .fault _ => true
  | .unknownStyle _ => false

/-- The values of variables; of several values for one name only the first is read. -/
def readBindings (limit : Int) : List (Option (String × String)) → Bindings → Build Bindings
  | [], bound => return bound
  | none :: _, _ => throw .emptyBinding
  | some (name, source) :: pairs, bound => do
    if (bound.value? name).isSome then readBindings limit pairs bound
    else readBindings limit pairs (bound ++ [(name, ← Expr.parse limit source)])

def Task.expression (t : Task) (line : String) : Build Expr := do
  let e ← Expr.parse t.limit line
  let e ← if t.simplify then e.simplify else pure e
  if t.evaluate then e.evaluate (← readBindings t.bindingLimit t.bindings []) else return e

def process (t : Task) (line : String) : Except Problem String :=
  match (t.expression line).run with
  | .error f => .error (.fault f)
  | .ok e =>
    match t.style with
    | none => .ok e.text
    | some name =>
      match Style.ofName? name with
      | some style => .ok (e.format style)
      | none => .error (.unknownStyle name)

structure Report where
  output : List String
  failures : Nat
  stop : Option Problem

/-- The output of some lines.  Blank lines are passed over. -/
def run (t : Task) : List String → Report
  | [] => ⟨[], 0, none⟩
  | line :: lines =>
    match Text.trim line.toList with
    | [] => run t lines
    | text =>
      match process t (String.ofList text) with
      | .ok result =>
        let rest := run t lines
        { rest with output := result :: rest.output }
      | .error problem =>
        if problem.isLocal then
          let rest := run t lines
          { rest with
            output := ("error: " ++ problem.message) :: rest.output
            failures := rest.failures + 1 }
        else ⟨[], 0, some problem⟩

def linesOf (text : String) : List String := text.splitOn "\n"

/-- The lines to work on and how, given the arguments, the input and what the settings say. -/
def plan (o : Options) (input : String) (styleName : String) (limit : Int) :
    Task × List String :=
  (⟨o.bindings, o.evaluate, o.simplify, some (o.style.getD styleName), limit, limit⟩,
    if o.operands.isEmpty then linesOf input else o.operands)

def Report.status (r : Report) : Nat := if r.failures = 0 then 0 else 1

/-- The exit status after the arguments were refused. -/
def Stop.status : Stop → Nat
  | .help => 0
  | .usage => 2

end ExactAlgebra.Console
