/-!
# Ledgers

A ledger accumulates amounts by key.  It keeps its entries in the order in which their keys came in,
each key as it was first written.  An amount that vanishes takes its key out of the ledger; when the
key returns, it goes to the end.

* `Ledger.keys_put`: the keys after an amount is stored.
* `Ledger.store`: the only way in; it drops a vanishing amount.
* `Ledger.post`: combines an amount with the present one.
* `Ledger.sorted`: the entries in the order of their keys, equal keys in the order of the ledger.
-/

namespace ExactAlgebra

/-- Entries by key, in the order in which the keys came in. -/
structure Ledger (κ ν : Type) where
  entries : List (κ × ν)

/-- How amounts accumulate: where a new key starts, how an amount is combined with the present one
and which amounts vanish. -/
structure Ledger.Rule (m : Type → Type) (ν : Type) where
  start : ν
  combine : ν → ν → m ν
  vanishes : ν → Bool

namespace Ledger

variable {κ ν : Type}

def empty : Ledger κ ν := ⟨[]⟩

def isEmpty (l : Ledger κ ν) : Bool := l.entries.isEmpty

def size (l : Ledger κ ν) : Nat := l.entries.length

def keys (l : Ledger κ ν) : List κ := l.entries.map Prod.fst

/-! ## Single keys -/

def get? [BEq κ] (l : Ledger κ ν) (key : κ) : Option ν :=
  (l.entries.find? (·.1 == key)).map Prod.snd

def contains [BEq κ] (l : Ledger κ ν) (key : κ) : Bool := l.entries.any (·.1 == key)

/-- Replaces the amount of a present key, keeping the key as it was written; appends a new one. -/
def putEntry [BEq κ] (key : κ) (amount : ν) : List (κ × ν) → List (κ × ν)
  | [] => [(key, amount)]
  | entry :: entries =>
    if entry.1 == key then (entry.1, amount) :: entries
    else entry :: putEntry key amount entries

def put [BEq κ] (l : Ledger κ ν) (key : κ) (amount : ν) : Ledger κ ν :=
  ⟨putEntry key amount l.entries⟩

def erase [BEq κ] (l : Ledger κ ν) (key : κ) : Ledger κ ν := ⟨l.entries.eraseP (·.1 == key)⟩

/-- Stores an amount at a key, or takes the key out when the amount vanishes. -/
def store [BEq κ] (vanishes : ν → Bool) (l : Ledger κ ν) (key : κ) (amount : ν) : Ledger κ ν :=
  if vanishes amount then l.erase key else l.put key amount

/-- Combines an amount with the present one, or with the start for a new key. -/
def post [BEq κ] {m : Type → Type} [Monad m] (rule : Rule m ν) (l : Ledger κ ν) (key : κ)
    (amount : ν) : m (Ledger κ ν) := do
  let updated ← rule.combine ((l.get? key).getD rule.start) amount
  return l.store rule.vanishes key updated

/-! ## Order -/

/-- Inserts an entry before the first one that comes after it, and before its equals. -/
def insertEntry (order : κ → κ → Ordering) (entry : κ × ν) : List (κ × ν) → List (κ × ν)
  | [] => [entry]
  | other :: entries =>
    if order other.1 entry.1 == .lt then other :: insertEntry order entry entries
    else entry :: other :: entries

/-- The entries by ascending key; equal keys stay in the order of the ledger. -/
def sorted (order : κ → κ → Ordering) (l : Ledger κ ν) : List (κ × ν) :=
  l.entries.foldr (insertEntry order) []

/-! ## Keys -/

@[simp] theorem keys_empty : (empty : Ledger κ ν).keys = [] := rfl

theorem map_fst_putEntry [BEq κ] (key : κ) (amount : ν) (entries : List (κ × ν)) :
    (putEntry key amount entries).map Prod.fst =
      if entries.any (·.1 == key) then entries.map Prod.fst else entries.map Prod.fst ++ [key] := by
  induction entries with
  | nil => simp [putEntry]
  | cons entry entries ih =>
    by_cases h : entry.1 == key
    · simp [putEntry, h]
    · simp only [putEntry, h, Bool.false_eq_true, if_false, List.map_cons, ih, List.any_cons,
        Bool.false_or, List.cons_append]
      split <;> rfl

theorem keys_put [BEq κ] (l : Ledger κ ν) (key : κ) (amount : ν) :
    (l.put key amount).keys = if l.contains key then l.keys else l.keys ++ [key] :=
  map_fst_putEntry key amount l.entries

theorem insertEntry_perm (order : κ → κ → Ordering) (entry : κ × ν) (entries : List (κ × ν)) :
    (insertEntry order entry entries).Perm (entry :: entries) := by
  induction entries with
  | nil => exact .refl _
  | cons other entries ih =>
    simp only [insertEntry]
    split
    · exact (ih.cons other).trans (.swap entry other entries)
    · exact .refl _

/-- Sorting loses and adds nothing. -/
theorem sorted_perm (order : κ → κ → Ordering) (l : Ledger κ ν) :
    (l.sorted order).Perm l.entries := by
  obtain ⟨entries⟩ := l
  induction entries with
  | nil => exact .refl _
  | cons entry entries ih => exact (insertEntry_perm order entry _).trans (ih.cons entry)

end Ledger

end ExactAlgebra
