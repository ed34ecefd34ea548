import ExactAlgebra.Expr.Evaluate
import ExactAlgebra.Expr.Parse
import ExactAlgebra.Expr.Simplify
import ExactAlgebra.Script.Plain
import ExactAlgebra.Script.Step

/-!
# Operations on values

What the steps of a script do with their operands.

* `arithmetic`, `product`, `signedTerm`, `evaluate`: arithmetic and substitution.
* `unary`, `style`: operators and conversions of one value.
* `get`, `item`, `call`: the parts and methods of an expression.
* `compare`, `orderOf`: comparisons.
-/

namespace ExactAlgebra.Script

/-! ## Operations on several values -/

/-- A term of a sum with its sign: an operand with an integer, or a pair of a term and a number that
is compared with zero. -/
def signedTerm : Value × Option Int → Run (Expr × Sign)
  | (.tuple items, none) =>
    match items with
    | [term, size] => do
      let term ← promote term
      let q ← require .operandKind size.rational?
      return (term, if 0 ≤ q then .plus else .minus)
    | items => throw (.notPair items.length)
  | (v, none) => return (← promote v, .plus)
  | (v, some size) => return (← promote v, if 0 ≤ size then .plus else .minus)

/-- The expressions of the values before the first one that is none, and whether there is one. -/
def promoteWhile : List Value → Run (List Expr × Bool)
  | [] => return ([], false)
  | v :: values =>
    match v.promote? with
    | none => return ([], true)
    | some e => do
      let e ← build e
      let (rest, stopped) ← promoteWhile values
      return (e :: rest, stopped)

/-- A product of values.  Operands are multiplied in turn, so a division by zero that comes before
an operand of the wrong kind is reported first. -/
def product (factors divisors : List Value) : Run Expr := do
  let (numerators, stopped) ← promoteWhile factors
  let (denominators, stopped) ←
    if stopped then pure ([], true) else promoteWhile divisors
  if stopped then
    let sum := Expr.sumAt (Expr.depthOf (numerators ++ denominators))
    let _ ← build (ProductDraft.empty.absorbAll sum numerators denominators)
    throw .operandKind
  else build (Expr.ofProduct numerators denominators)

/-- The integers of up to two operands, which default to zero over one. -/
def quotientOf (args : List Value) : Run (Int × Int) := do
  match ← args.mapM fun v => require .operandKind v.integer? with
  | [] => return (0, 1)
  | [n] => return (n, 1)
  | [n, d] => return (n, d)
  | _ => throw .operandKind

/-- An operator on two values.  A fraction on the left of a power is raised by its own rules, which
take the exponent for a plain number, or do not take it at all. -/
def arithmetic (op : Arithmetic) (a b : Value) : Run Value :=
  match a, b with
  | .expr a, b => do return .expr (← build (a.apply op (← promote b)))
  | .fraction p, .expr e =>
    match op, e with
    | .power, .num n => plainPower true p n.value
    | .power, _ => throw .operandKind
    | op, e => do return .expr (← build ((← promote (.fraction p)).apply op e))
  | a, .expr b => do return .expr (← build ((← promote a).apply op b))
  | a, b =>
    match a.number?, b.number? with
    | some p, some q => plainArithmetic op a b p q
    | _, _ => throw .operandKind

/-- The value of a variable: a text is read as an expression. -/
def boundValue : Value → Run Expr
  | .text source => build (Expr.parse Expr.defaultLimit source)
  | v => promote v

/-- The bindings for some pairs; later pairs for a name are passed over. -/
def bindings : Pairs Value → Bindings → Run Bindings
  | [], bound => return bound
  | (name, v) :: pairs, bound => do
    if (bound.value? name).isSome then bindings pairs bound
    else bindings pairs (bound ++ [(name, ← boundValue v)])

/-- The pairs as a table: a later value replaces an earlier one and takes its place. -/
def overwriting (pairs : Pairs Value) : Pairs Value :=
  (pairs.foldl (fun table (name, v) => table.put name v) Ledger.empty).entries

/-- The names that an evaluation step keeps to itself, so that no named value may have them. -/
def reservedNames : List String := ["self", "bindings"]

/-- Substitutes some pairs, then some named values. -/
def evaluate (e : Expr) (pairs : Pairs Value) (overwrite : Bool) (values : Pairs Value) :
    Run Expr := do
  let pairs := if overwrite then overwriting pairs else pairs
  let bound ← bindings (pairs ++ overwriting values) []
  build (e.evaluate bound)

/-! ## Operations on one value -/

/-- A value counts as true: not zero and not empty. -/
def truth : Value → Bool
  | .expr (.num n) => !n.isZero
  | .text s => !s.isEmpty
  | .none => false
  | .tuple items => !items.isEmpty
  | .binary bits => Binary64.magnitude bits != 0
  | v =>
    match v.number? with
    | some q => q != 0
    | none => true

def negative : Value → Run Value
  | .expr e => return .expr (← build e.neg)
  | .binary bits => return .binary (Binary64.negate bits)
  | v => return plain v (-(← require .operandKind v.number?))

def magnitude : Value → Run Value
  | .expr (.num n) => return .ofNum (← build n.magnitude)
  | .binary bits => return .binary (Binary64.magnitude bits)
  | v => do
    let q ← require .operandKind v.number?
    return plain v (if q < 0 then -q else q)

def unary (op : Unary) (v : Value) : Run Value :=
  match op, v with
  | .negative, v => negative v
  | .positive, .expr e => return .expr e
  | .positive, .binary bits => return .binary bits
  | .positive, v => return plain v (← require .operandKind v.number?)
  | .magnitude, v => magnitude v
  | .truth, v => return .bool (truth v)
  | .integer, v => return .int (← toInteger v)
  | .float, v => toBinary v
  | .description, v => return .text v.shown
  | .negate, .expr e => return .expr (← build e.neg)
  | .negate, v => return .expr (← build (Expr.ofSum [(← promote v, .minus)]))
  | .promote, v => return .expr (← promote v)
  | .simplify, .expr e => return .expr (← build e.simplify)
  | .simplify, _ => throw .noSuchPart

/-- The style that a value names; no value names plain text. -/
def style : Value → Run Style
  | .none => return .text
  | .text name => require (.unknownStyle (Text.quoted name)) (Style.ofName? name)
  | v => throw (.unknownStyle v.shown)

/-! ## Parts and methods -/

def factorsValue (factors : List (Expr × Expr)) : Value :=
  .tuple (factors.map fun (base, exponent) => .tuple [.expr base, .expr exponent])

def summandsValue (summands : List (Expr × Num)) : Value :=
  .tuple (summands.map fun (term, coefficient) => .tuple [.expr term, .ofNum coefficient])

def part? : Expr → Part → Option Value
  | .num n, .numerator => some (.int n.numerator)
  | .num n, .denominator => some (.int n.denominator)
  | .var name, .name => some (.text name)
  | .power _ base _, .base => some (.expr base)
  | .power _ _ exponent, .exponent => some (.expr exponent)
  | .product _ c _, .coefficient => some (.ofNum c)
  | .product _ _ factors, .factors => some (factorsValue factors)
  | .product _ c factors, .terms => some (factorsValue (Expr.productTerms c factors))
  | .sum _ c _, .constant => some (.ofNum c)
  | .sum _ _ summands, .summands => some (summandsValue summands)
  | .sum _ c summands, .terms => some (summandsValue (Expr.sumTerms c summands))
  | e, .height => some (.int e.height)
  | _, _ => none

/-- A part of a value: numbers that are no expressions have a numerator and a denominator, too. -/
def get (v : Value) (part : Option Part) : Run Value :=
  match v, part with
  | .expr e, some part => require .noSuchPart (part? e part)
  | v, some .numerator => return .int (← require .noSuchPart v.number?).num
  | v, some .denominator => return .int (← require .noSuchPart v.number?).den
  | _, _ => throw .noSuchPart

/-- The item of a tuple at an index; a negative index counts from the end. -/
def item (v : Value) (index : Int) : Run Value :=
  match v with
  | .tuple items =>
    let index := if index < 0 then index + items.length else index
    if index < 0 then throw .noSuchEntry else require .noSuchEntry items[index.toNat]?
  | _ => throw .operandKind

def numberMethod (op : Arithmetic) (n : Num) (arg : Value) : Run Value :=
  match op, arg with
  | .power, arg => do return .expr (← build (Expr.ofPower (.num n) (← promote arg)))
  | op, .expr (.num m) => do return .expr (← build (n.apply op m))
  | op, arg => do
    let q ← require .noSuchPart arg.number?
    return .expr (← build do n.apply op (← Num.ofFraction q.num q.den))

def call (v : Value) (method : Option Method) (args : List Value) : Run Value :=
  match v, method, args with
  | .expr e, some .reciprocal, [] => do return .expr (← build e.reciprocal)
  | .expr _, some .reciprocal, _ => throw .operandKind
  | .expr (.product age c factors), some .split, [] => do
    let (coefficient, rest) ← build (Expr.separate age c factors)
    return .tuple [.ofNum coefficient, .expr rest]
  | .expr (.product ..), some .split, _ => throw .operandKind
  | .expr (.num n), some (.arithmetic op), [arg] => numberMethod op n arg
  | .expr (.num n), some .negate, [] => do return .ofNum (← build n.negate)
  | .expr (.num n), some .isInteger, [] => return .bool n.isInteger
  | .expr (.num n), some .signum, [] => return .int n.signum
  | .expr (.num _), some .split, _ => throw .noSuchPart
  | .expr (.num _), some _, _ => throw .operandKind
  | _, _, _ => throw .noSuchPart

/-! ## Comparison -/

def compare (relation : Relation) (a b : Value) : Run Bool :=
  match relation with
  | .eq => return a.equal b
  | .ne => return !a.equal b
  | _ => require .operandKind (a.ordered? relation b)

def orderOf (order : Expr → Expr → Ordering) (a b : Value) : Run Value :=
  match a, b with
  | .expr a, .expr b =>
    return .int (match order a b with | .lt => -1 | .eq => 0 | .gt => 1)
  | _, _ => throw .operandKind

end ExactAlgebra.Script
