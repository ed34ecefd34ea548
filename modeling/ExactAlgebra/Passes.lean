import ExactAlgebra.Expr.Canonical
import ExactAlgebra.Token

/-!
# Resolving tokens

The parser works on lists in which tokens and expressions stand side by side.  The leaves are built
first, from left to right.  Then every bracket group is resolved from the inside out: its groups are
replaced by their expressions, its powers are resolved from right to left, its runs of
multiplications and divisions from left to right, and what is left is one sum.  A limit bounds the
nesting of brackets and the height of every power and every group.

Each pass goes by the indices of a list, and takes for granted that an item stands where it looks
for one and that what it hands to a construction is an expression.  Where this is not so the pass
has made a misstep.

* `Passes.findEnd`: the end of a bracket group.
* `Passes.resolvePowers`, `Passes.resolveProducts`, `Passes.resolveSums`: the passes.
* `Passes.resolve`: the expression of a bracket group.
* `Passes.parseTokens`: the expression of a token list.
-/

namespace ExactAlgebra

def Atom.build : Atom → Build Expr
  | .number n => return .num (← Num.ofFraction (n.scaled n.places) (Text.powerOfTen n.places))
  | .variable name => return .var (String.singleton name)

namespace Passes

inductive Item where
  | token (t : Token)
  | expr (e : Expr)

inductive Misstep where
  /-- No item stands at an index, or none is left to be taken. -/
  | noItem
  /-- A token stands where an expression is needed. -/
  | noExpression (t : Token)

/-- A construction that goes by the items of a list. -/
abbrev Pass := ExceptT Misstep Build

/-! ## Items -/

def Item.isOneOf (tokens : List Token) : Item → Bool
  | .token t => tokens.contains t
  | .expr _ => false

def Item.operand : Item → Pass Expr
  | .expr e => return e
  | .token t => throw (.noExpression t)

def itemAt (items : List Item) (i : Nat) : Pass Item :=
  match items[i]? with
  | some item => return item
  | none => throw .noItem

def pop : List Item → Pass (Item × List Item)
  | [] => throw .noItem
  | item :: result => return (item, result)

/-- Takes the last operand from a list in reverse order, with a minus that may stand before it. -/
def popSigned (result : List Item) : Pass (Expr × List Item) := do
  let (item, result) ← pop result
  if item.isOneOf [.operator .minus] then
    let (item, result) ← pop result
    return (← (← item.operand).neg, result)
  else return (← item.operand, result)

/-- The operand at an index, with a minus that may stand before it, and the index after it. -/
def operandAt (items : List Item) (i : Nat) : Pass (Expr × { j // i < j }) := do
  let item ← itemAt items i
  if item.isOneOf [.operator .minus] then
    return (← (← (← itemAt items (i + 1)).operand).neg, ⟨i + 2, by omega⟩)
  else return (← item.operand, ⟨i + 1, by omega⟩)

/-- A number or a variable becomes an expression. -/
def leaf : Token → Build Item
  | .atom a => return .expr (← a.build)
  | .operator o => return .token (.operator o)
  | .opening => return .token .opening
  | .closing => return .token .closing

/-! ## Brackets -/

/-- The index of the bracket that closes the current group, or of the end of the list.  From `i` on
`level` counts the brackets that have been opened in the group. -/
def findEnd (items : List Item) (level : Int) (i : Nat) : Nat :=
  if _ : i < items.length then
    if items[i].isOneOf [.opening] then findEnd items (level + 1) (i + 1)
    else if items[i].isOneOf [.closing] then
      if level - 1 < 0 then i else findEnd items (level - 1) (i + 1)
    else findEnd items level (i + 1)
  else items.length
termination_by items.length - i

/-! ## Products and sums -/

def multiplies (items : List Item) (i : Nat) : Bool :=
  items[i]?.any (·.isOneOf [.operator .times, .operator .over])

theorem lt_of_multiplies {items : List Item} {i : Nat} (h : multiplies items i = true) :
    i < items.length := by
  refine Nat.not_le.mp fun hle => ?_
  rw [multiplies, List.getElem?_eq_none hle] at h
  exact nomatch h

mutual

/-- Runs of multiplications and divisions from `i` on, resolved from left to right.  The items
before `i` have become `result`, in reverse order. -/
def resolveProducts (items result : List Item) (i : Nat) : Pass (List Item) :=
  if i < items.length then
    if multiplies items i then do
      let (first, result) ← pop result
      resolveRun items result [← first.operand] [] i
    else do resolveProducts items ((← itemAt items i) :: result) (i + 1)
  else return result.reverse
termination_by (items.length - i, (multiplies items i).toNat)
decreasing_by
  · exact .right _ (by simp [*])
  · exact .left _ _ (by omega)

/-- A run of multiplications and divisions from `i` on, with the operands that it has had. -/
def resolveRun (items result : List Item) (factors divisors : List Expr) (i : Nat) :
    Pass (List Item) :=
  if multiplies items i then do
    let operator ← itemAt items i
    let (e, j) ← operandAt items (i + 1)
    if operator.isOneOf [.operator .times] then resolveRun items result (factors ++ [e]) divisors j
    else resolveRun items result factors (divisors ++ [e]) j
  else do
    let product ← Expr.ofProduct factors divisors
    resolveProducts items (.expr product :: result) i
termination_by (items.length - i, (!multiplies items i).toNat)
decreasing_by
  · have := lt_of_multiplies ‹_›
    exact .left _ _ (by omega)
  · have := lt_of_multiplies ‹_›
    exact .left _ _ (by omega)
  · exact .right _ (by simp [*])

end

/-- Additions and subtractions as a single sum; `sign` is the sign of the next addend. -/
def resolveSums (addends : SignedTerms) (sign : Sign) : List Item → Pass Expr
  | [] => Expr.ofSum addends
  | item :: items =>
    if item.isOneOf [.operator .minus] then resolveSums addends .minus items
    else if item.isOneOf [.operator .plus] then resolveSums addends .plus items
    else do resolveSums (addends ++ [(← item.operand, sign)]) .plus items

section Limit

variable (source : String) (limit : Int)

/-- Refuses what nests more deeply than the limit. -/
def checkLevels (levels : Nat) : Build Unit :=
  if limit < levels then throw (.text (.nesting source limit)) else return ()

/-! ## Powers -/

/-- Powers among the first items of a list, resolved from right to left.  The items behind them have
become `result`. -/
def resolvePowers (items : List Item) : Nat → List Item → Pass (List Item)
  | 0, result => return result
  | i + 1, result => do
    let item ← itemAt items i
    if item.isOneOf [.operator .caret] then
      match i with
      | 0 => throw .noItem
      | j + 1 =>
        let base ← itemAt items j
        let (exponent, result) ← popSigned result
        let power ← Expr.ofPower (← base.operand) exponent
        checkLevels source limit power.height
        resolvePowers items j (.expr power :: result)
    else resolvePowers items i (item :: result)

/-! ## Groups -/

/-- A pass, where more than one item is left. -/
def ifSeveral (pass : List Item → Pass (List Item)) (items : List Item) : Pass (List Item) :=
  if 1 < items.length then pass items else return items

/-- The expression of a group in which no bracket is left. -/
def combine (items : List Item) : Pass Expr := do
  let items ← ifSeveral (fun items => resolvePowers source limit items items.length []) items
  let items ← ifSeveral (fun items => resolveProducts items [] 0) items
  let items ← ifSeveral (fun items => do return [.expr (← resolveSums [] .plus items)]) items
  let e ← (← itemAt items 0).operand
  checkLevels source limit e.height
  return e

mutual

/-- The expression of the bracket group that begins at an index. -/
def resolve (items : List Item) (start depth : Nat) : Pass Expr := do
  checkLevels source limit depth
  let stop := findEnd items 0 start
  if stop = start + 1 then (← itemAt items start).operand
  else combine source limit (← reduce items depth stop 0 [] start)
termination_by 2 * (items.length - start) + 1

/-- The items of a group from `i` on, with every group in it resolved.  The items before `i` have
become `reduced`, and `level` counts the brackets that have been opened among them. -/
def reduce (items : List Item) (depth stop : Nat) (level : Int) (reduced : List Item) (i : Nat) :
    Pass (List Item) :=
  if i < stop then
    if _ : i < items.length then
      if items[i].isOneOf [.opening] then
        if level = 0 then do
          let e ← resolve items (i + 1) (depth + 1)
          reduce items depth stop (level + 1) (reduced ++ [.expr e]) (i + 1)
        else reduce items depth stop (level + 1) reduced (i + 1)
      else if items[i].isOneOf [.closing] then reduce items depth stop (level - 1) reduced (i + 1)
      else if level = 0 then reduce items depth stop level (reduced ++ [items[i]]) (i + 1)
      else reduce items depth stop level reduced (i + 1)
    else throw .noItem
  else return reduced
termination_by 2 * (items.length - i)

end

def parseTokens (tokens : List Token) : Pass Expr := do
  let items ← (tokens.mapM leaf : Build (List Item))
  resolve source limit items 0 0

end Limit

end Passes

end ExactAlgebra
