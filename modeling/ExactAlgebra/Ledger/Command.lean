import ExactAlgebra.Ledger

/-!
# Commands on a ledger

A ledger with texts as keys and integers as amounts can be worked on command by command.

* `Command.execute`: the ledger after a command, and its reply.
* `Command.execute_eq_self`: a command that misses its key changes nothing.
-/

namespace ExactAlgebra.Ledger

/-- The orders in which the entries can be asked for. -/
inductive KeyOrder where
  /-- By the characters of the key. -/
  | text
  /-- By the number of characters of the key. -/
  | length
  /-- By the characters of the key, each counted downwards. -/
  | reverse
  deriving DecidableEq

/-- The lexicographic order in which a greater character comes first. -/
def descending : List Char → List Char → Ordering
  | [], [] => .eq
  | [], _ :: _ => .lt
  | _ :: _, [] => .gt
  | a :: as, b :: bs => if b < a then .lt else if a < b then .gt else descending as bs

def KeyOrder.compare (order : KeyOrder) (a b : String) : Ordering :=
  match order with
  | .text => compareOfLessAndEq a b
  | .length => compareOfLessAndEq a.length b.length
  | .reverse => descending a.toList b.toList

inductive Command where
  | post (key : String) (amount : Int)
  | store (key : String) (amount : Int)
  | erase (key : String)
  | get (key : String)
  | contains (key : String)
  /-- Takes a key out and tells its amount, or tells the default. -/
  | pop (key : String) (default : Option Int)
  /-- Tells the amount of a key after storing the default at a missing one. -/
  | getOrStore (key : String) (default : Int)
  | clear
  | sorted (order : KeyOrder)

inductive Reply where
  | nothing
  | amount (n : Int)
  | truth (b : Bool)
  | entries (l : List (String × Int))
  /-- The key is not in the ledger. -/
  | missing

namespace Command

def execute (rule : Rule Id Int) (l : Ledger String Int) : Command → Ledger String Int × Reply
  | .post key amount => (Id.run (l.post rule key amount), .nothing)
  | .store key amount => (l.store rule.vanishes key amount, .nothing)
  | .erase key => if l.contains key then (l.erase key, .nothing) else (l, .missing)
  | .get key =>
    match l.get? key with
    | some n => (l, .amount n)
    | none => (l, .missing)
  | .contains key => (l, .truth (l.contains key))
  | .pop key default =>
    match l.get? key, default with
    | some n, _ => (l.erase key, .amount n)
    | none, some n => (l, .amount n)
    | none, none => (l, .missing)
  | .getOrStore key default =>
    match l.get? key with
    | some n => (l, .amount n)
    | none => (l.store rule.vanishes key default, .amount default)
  | .clear => (.empty, .nothing)
  | .sorted order => (l, .entries (l.sorted order.compare))

def executeAll (rule : Rule Id Int) (l : Ledger String Int) :
    List Command → List (Ledger String Int × Reply)
  | [] => []
  | c :: commands =>
    let after := c.execute rule l
    after :: executeAll rule after.1 commands

theorem execute_eq_self {rule : Rule Id Int} {l : Ledger String Int} {c : Command}
    (h : (c.execute rule l).2 = .missing) : (c.execute rule l).1 = l := by
  cases c <;> simp only [execute] at h ⊢ <;> (try split at h) <;> simp_all

end Command

/-- Amounts are added, and one amount vanishes. -/
def sumRule (start vanishing : Int) : Rule Id Int :=
  ⟨start, fun a b => pure (a + b), (· == vanishing)⟩

end ExactAlgebra.Ledger
