import ExactAlgebra.Settings.Fault
import ExactAlgebra.Text.LowerCase

/-!
# References between values

A value can refer to the value of another key: a percent sign, the key in round brackets and the
letter s stand for that value, in which references are replaced in turn.  Two percent signs stand
for one.  References that lead to references are followed up to a limit.

* `Settings.pieces`: a value cut into characters and references.
* `Settings.expand`: a value with its references replaced.
-/

namespace ExactAlgebra.Settings

inductive Piece where
  | char (c : Char)
  | reference (key : List Char)
  /-- A percent sign that stands for nothing, with the text from there on. -/
  | stray (rest : List Char)
  /-- A reference that is not closed, with the text from there on. -/
  | unclosed (rest : List Char)

/-- The key of a reference and what follows it, given the text after the opening bracket. -/
def reference? (text : List Char) : Option (List Char × List Char) :=
  match text.takeWhile (· != ')'), text.dropWhile (· != ')') with
  | c :: key, ')' :: 's' :: rest => some (c :: key, rest)
  | _, _ => none

theorem length_lt_of_reference? {text key rest : List Char}
    (h : reference? text = some (key, rest)) : rest.length < text.length := by
  have split := congrArg List.length (List.takeWhile_append_dropWhile (p := (· != ')')) (l := text))
  unfold reference? at h
  split at h
  next c key' rest' hkey hrest =>
    simp only [Option.some.injEq, Prod.mk.injEq] at h
    rw [hkey, hrest] at split
    simp only [List.length_append, List.length_cons, h.2] at split
    omega
  next => simp at h

/-- The pieces of a value; nothing is cut after a percent sign that is out of place. -/
def pieces : List Char → List Piece
  | [] => []
  | '%' :: '%' :: text => .char '%' :: pieces text
  | '%' :: '(' :: text =>
    match h : reference? text with
    | some (key, rest) =>
      have := length_lt_of_reference? h
      .reference key :: pieces rest
    | none => [.unclosed ('%' :: '(' :: text)]
  | '%' :: text => [.stray ('%' :: text)]
  | c :: text => .char c :: pieces text
termination_by text => text.length

/-- How many references may be inside one another. -/
def referenceLimit : Nat := 10

/-- A value with its references replaced, given the values by key and the number of references that
may still be inside one another. -/
def expand (site : Site) (value? : String → Option String) : Nat → List Char →
    Except Fault (List Char)
  | 0, _ => .error (.deepReference site referenceLimit)
  | steps + 1, text => do
    let parts ← (pieces text).mapM fun
      | .char c => .ok [c]
      | .reference key =>
        let key := String.ofList (Text.lower key)
        match value? key with
        | none => .error (.unknownReference site key)
        | some value =>
          if value.toList.contains '%' then expand site value? steps value.toList
          else .ok value.toList
      | .stray rest => .error (.strayPercent (String.ofList rest))
      | .unclosed rest => .error (.openReference (String.ofList rest))
    return parts.flatten

end ExactAlgebra.Settings
