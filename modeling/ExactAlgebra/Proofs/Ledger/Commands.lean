import ExactAlgebra.Proofs.Ledger.Lookup
import ExactAlgebra.Proofs.Ledger.Sorted
import Mathlib.Data.Finmap

/-!
# Commands on a ledger and on a finite map

A ledger that is worked on command by command answers as a finite map does in which storing the
vanishing amount means deleting.  In addition it keeps its keys in the order in which they came in:
a command about one key leaves the others as they stand, a present key keeps its place, and a new
one goes to the end.

* `Command.answer`: what a command makes of a finite map, and the reply.
* `Ledger.Changes`: how a command about one key changes a ledger.
* `Command.execute_conforms`: what is true of one command.
* `executeAll_conforms`: what is true of any sequence of commands.
-/

namespace ExactAlgebra.Ledger

/-! ## Finite maps -/

abbrev Amounts := Finmap fun _ : String => Int

/-- Storing the vanishing amount means deleting. -/
def Amounts.assign (vanishing : Int) (m : Amounts) (key : String) (amount : Int) : Amounts :=
  if amount = vanishing then m.erase key else m.insert key amount

/-- What a command makes of a finite map, and the reply.  A map has no order in which its entries
could be listed. -/
def Command.answer (start vanishing : Int) (m : Amounts) : Command → Amounts × Option Reply
  | .post key amount =>
    (m.assign vanishing key ((m.lookup key).getD start + amount), some .nothing)
  | .store key amount => (m.assign vanishing key amount, some .nothing)
  | .erase key => (m.erase key, some (if key ∈ m then .nothing else .missing))
  | .get key => (m, some ((m.lookup key).elim .missing .amount))
  | .contains key => (m, some (.truth (key ∈ m)))
  | .pop key default => (m.erase key, some (((m.lookup key).or default).elim .missing .amount))
  | .getOrStore key default =>
    (if key ∈ m then m else m.assign vanishing key default,
      some (.amount ((m.lookup key).getD default)))
  | .clear => (∅, some .nothing)
  | .sorted _ => (m, none)

def Command.key? : Command → Option String
  | .post key _ | .store key _ | .erase key | .get key | .contains key | .pop key _
  | .getOrStore key _ => some key
  | .clear | .sorted _ => none

theorem Amounts.lookup_assign (vanishing : Int) (m : Amounts) (key k : String) (amount : Int) :
    (m.assign vanishing key amount).lookup k =
      if key = k then if amount = vanishing then none else some amount else m.lookup k := by
  rw [assign]
  split
  · by_cases hk : key = k
    · rw [if_pos hk, hk, Finmap.lookup_erase]
    · rw [if_neg hk, Finmap.lookup_erase_ne (Ne.symm hk)]
  · by_cases hk : key = k
    · rw [if_pos hk, hk, Finmap.lookup_insert]
    · rw [if_neg hk, Finmap.lookup_insert_of_ne _ (Ne.symm hk)]

/-! ## The entries of the other keys -/

variable {l : Ledger String Int}

/-- How a command about a key may change a ledger: the entries of the other keys stay as they are
and in their order, a key that is present before and after keeps its place, and one that comes in
does so at the end. -/
structure Changes (key : String) (l l' : Ledger String Int) : Prop where
  others : l'.entries.filter (fun p => p.1 ≠ key) = l.entries.filter fun p => p.1 ≠ key
  in_place : l.contains key = true → l'.contains key = true → l'.keys = l.keys
  at_end : l.contains key = false → l'.contains key = true →
    ∃ amount, l'.entries = l.entries ++ [(key, amount)]

theorem Changes.refl (key : String) (l : Ledger String Int) : Changes key l l where
  others := rfl
  in_place _ _ := rfl
  at_end h h' := absurd (h.symm.trans h') Bool.false_ne_true

theorem changes_put (l : Ledger String Int) (key : String) (amount : Int) :
    Changes key l (l.put key amount) where
  others := by
    cases h : l.get? key with
    | some old =>
      obtain ⟨k, before, after, hk, he, hput, -⟩ := get?_eq_some h
      obtain rfl := eq_of_beq hk
      rw [he, hput]
      simp
    | none =>
      rw [(get?_eq_none h).2.1]
      simp
  in_place h _ := by rw [keys_put, if_pos h]
  at_end h _ := by
    rw [contains_eq, Option.isSome_eq_false_iff, Option.isNone_iff_eq_none] at h
    exact ⟨amount, (get?_eq_none h).2.1 amount⟩

theorem changes_erase (h : l.Distinct) (key : String) : Changes key l (l.erase key) := by
  have hgone : (l.erase key).contains key = false := by
    rw [contains_eq, get?_erase h, if_pos BEq.rfl, Option.isSome_none]
  refine ⟨?_, fun _ h' => absurd (hgone.symm.trans h') Bool.false_ne_true,
    fun _ h' => absurd (hgone.symm.trans h') Bool.false_ne_true⟩
  cases hg : l.get? key with
  | some old =>
    obtain ⟨k, before, after, hk, he, -, herase⟩ := get?_eq_some hg
    obtain rfl := eq_of_beq hk
    rw [he, herase]
    simp
  | none => rw [(get?_eq_none hg).2.2]

theorem changes_store (h : l.Distinct) (vanishes : Int → Bool) (key : String) (amount : Int) :
    Changes key l (l.store vanishes key amount) := by
  rw [store]
  split
  · exact changes_erase h key
  · exact changes_put l key amount

/-! ## One command -/

variable {start vanishing : Int} {m : Amounts}

/-- The ledger holds the entries of a finite map: no two keys are equal, no amount vanishes, and
every key is found with the amount that the map gives it. -/
structure Holds (vanishing : Int) (m : Amounts) (l : Ledger String Int) : Prop where
  distinct : l.Distinct
  kept : ∀ p ∈ l.entries, p.2 ≠ vanishing
  found : ∀ key, l.get? key = m.lookup key

namespace Holds

theorem empty : Holds vanishing ∅ .empty := ⟨.empty, nofun, fun _ => rfl⟩

theorem erase (h : Holds vanishing m l) (key : String) :
    Holds vanishing (m.erase key) (l.erase key) where
  distinct := h.distinct.erase key
  kept p hp := h.kept p (List.mem_of_mem_eraseP hp)
  found k := by
    rw [get?_erase h.distinct]
    by_cases hk : key = k
    · rw [if_pos (beq_iff_eq.mpr hk), hk, Finmap.lookup_erase]
    · rw [if_neg (mt beq_iff_eq.mp hk), Finmap.lookup_erase_ne (Ne.symm hk), h.found]

theorem store (h : Holds vanishing m l) (key : String) (amount : Int) :
    Holds vanishing (m.assign vanishing key amount) (l.store (· == vanishing) key amount) where
  distinct := h.distinct.store _ key amount
  kept := by
    have hall : l.All (fun _ => True) (· ≠ vanishing) := fun p hp => ⟨trivial, h.kept p hp⟩
    intro p hp
    exact (hall.store trivial (by simp) p hp).2
  found k := by
    rw [get?_store h.distinct, Amounts.lookup_assign, h.found]
    simp only [beq_iff_eq]

end Holds

namespace Command

/-- A command about a key changes nothing but the entry of this key. -/
theorem execute_changes (rule : Rule Id Int) (h : l.Distinct) {c : Command} {key : String}
    (hkey : key ∈ c.key?) : Changes key l (c.execute rule l).1 := by
  cases c with
  | clear | sorted order => cases hkey
  | post k amount =>
    obtain rfl := Option.some.inj hkey
    exact changes_store h rule.vanishes k _
  | store k amount =>
    obtain rfl := Option.some.inj hkey
    exact changes_store h rule.vanishes k amount
  | erase k =>
    obtain rfl := Option.some.inj hkey
    rw [execute]
    split
    · exact changes_erase h k
    · exact .refl k l
  | get k =>
    obtain rfl := Option.some.inj hkey
    rw [execute]
    split <;> exact .refl k l
  | contains k => exact .refl key l
  | pop k default =>
    obtain rfl := Option.some.inj hkey
    simp only [execute]
    split
    · exact changes_erase h k
    · exact .refl k l
    · exact .refl k l
  | getOrStore k default =>
    obtain rfl := Option.some.inj hkey
    rw [execute]
    split
    · exact .refl k l
    · exact changes_store h rule.vanishes k default

/-- What a command leaves is what the map has after it. -/
theorem execute_holds (h : Holds vanishing m l) (c : Command) :
    Holds vanishing (c.answer start vanishing m).1
      (c.execute (sumRule start vanishing) l).1 := by
  -- An absent key is taken out of the map as well as of the ledger, to no effect.
  have habsent {key : String} (hg : l.get? key = none) : Holds vanishing (m.erase key) l := by
    have herase := h.erase key
    rwa [erase_eq_self hg] at herase
  cases c with
  | post key amount =>
    rw [answer, ← h.found]
    exact h.store key ((l.get? key).getD start + amount)
  | store key amount => exact h.store key amount
  | erase key =>
    rw [execute, contains_eq]
    cases hg : l.get? key with
    | some n => exact h.erase key
    | none => exact habsent hg
  | get key =>
    rw [execute]
    split <;> exact h
  | contains key => exact h
  | pop key default =>
    simp only [execute]
    split
    next => exact h.erase key
    next hg => exact habsent hg
    next hg => exact habsent hg
  | getOrStore key default =>
    simp only [execute, answer, ← Finmap.lookup_isSome, ← h.found]
    cases hg : l.get? key with
    | some n => exact h
    | none => exact h.store key default
  | clear => exact .empty
  | sorted order => exact h

/-- The reply of a command is that of the map. -/
theorem execute_replied (h : Holds vanishing m l) (c : Command) :
    ∀ r ∈ (c.answer start vanishing m).2, (c.execute (sumRule start vanishing) l).2 = r := by
  intro r hr
  cases c with
  | post key amount => exact Option.some.inj hr
  | store key amount => exact Option.some.inj hr
  | erase key =>
    simp only [answer, ← Finmap.lookup_isSome, ← h.found] at hr
    obtain rfl := Option.some.inj hr
    rw [execute, contains_eq]
    split <;> rfl
  | get key =>
    simp only [answer, ← h.found] at hr
    obtain rfl := Option.some.inj hr
    rw [execute]
    cases l.get? key <;> rfl
  | contains key =>
    simp only [answer, ← Finmap.lookup_isSome, ← h.found] at hr
    obtain rfl := Option.some.inj hr
    rw [execute, contains_eq, Bool.decide_eq_true]
  | pop key default =>
    simp only [answer, ← h.found] at hr
    obtain rfl := Option.some.inj hr
    simp only [execute]
    cases l.get? key <;> cases default <;> rfl
  | getOrStore key default =>
    simp only [answer, ← h.found] at hr
    obtain rfl := Option.some.inj hr
    rw [execute]
    cases l.get? key <;> rfl
  | clear => exact Option.some.inj hr
  | sorted order => cases hr

end Command

/-- What is true of a command on a ledger that holds the entries of a finite map, of the ledger that
it leaves, and of its reply. -/
structure Conforms (start vanishing : Int) (m : Amounts) (l : Ledger String Int) (c : Command)
    (l' : Ledger String Int) (reply : Reply) : Prop where
  /-- The ledger holds what the map has after the command. -/
  holds : Holds vanishing (c.answer start vanishing m).1 l'
  /-- The reply is that of the map. -/
  replied : ∀ r ∈ (c.answer start vanishing m).2, reply = r
  changes : ∀ key ∈ c.key?, Changes key l l'
  /-- A command that misses its key changes nothing. -/
  missing : reply = .missing → l' = l
  /-- Entries that are asked for come in a stable sort, and nothing is changed. -/
  listed : ∀ order, c = .sorted order →
    l' = l ∧ ∃ entries, reply = .entries entries ∧ order.Sorts l.entries entries

theorem Command.execute_conforms (h : Holds vanishing m l) (c : Command) :
    Conforms start vanishing m l c (c.execute (sumRule start vanishing) l).1
      (c.execute (sumRule start vanishing) l).2 where
  holds := execute_holds h c
  replied := execute_replied h c
  changes _ := execute_changes _ h.distinct
  missing := execute_eq_self
  listed order hc := by
    subst hc
    exact ⟨rfl, _, rfl, order.sorts l⟩

/-! ## Any sequence of commands -/

/-- Every command of a run conforms to the map that has gone through the commands before it. -/
inductive RunConforms (start vanishing : Int) :
    Amounts → Ledger String Int → List Command → List (Ledger String Int × Reply) → Prop
  | nil (m : Amounts) (l : Ledger String Int) : RunConforms start vanishing m l [] []
  | cons {m : Amounts} {l l' : Ledger String Int} {c : Command} {reply : Reply}
    {commands : List Command} {answers : List (Ledger String Int × Reply)}
    (step : Conforms start vanishing m l c l' reply)
    (run : RunConforms start vanishing (c.answer start vanishing m).1 l' commands answers) :
    RunConforms start vanishing m l (c :: commands) ((l', reply) :: answers)

theorem Holds.run (h : Holds vanishing m l) (commands : List Command) :
    RunConforms start vanishing m l commands
      (Command.executeAll (sumRule start vanishing) l commands) := by
  induction commands generalizing m l with
  | nil => exact .nil m l
  | cons c commands ih =>
    have hstep : Conforms start vanishing m l c _ _ := Command.execute_conforms h c
    exact .cons hstep (ih hstep.holds)

/-- **A ledger with integers answers as a finite map does**, whatever the start and the vanishing
amount, and whatever is asked of it, one command after the other.  After each command the keys are
distinct, no amount vanishes, and each key has the amount that the map gives it; the reply is that
of the map.  A command about a key leaves the other entries as they are and in their order; a
present key keeps its place, and a new one goes to the end.  A command that misses its key changes
nothing.  Entries that are asked for in an order come in a stable sort, as they would for any other
function of the keys. -/
theorem executeAll_conforms (start vanishing : Int) (commands : List Command) :
    RunConforms start vanishing ∅ .empty commands
        (Command.executeAll (sumRule start vanishing) .empty commands) ∧
      ∀ (l : Ledger String Int) {α : Type} [LinearOrder α] (key : String → α),
        StableSort key l.entries (l.sorted fun a b => compare (key a) (key b)) :=
  ⟨Holds.empty.run commands, fun l _ _ _ => sorted_stable (fun _ _ => compare_lt_iff_lt) l⟩

end ExactAlgebra.Ledger
