import ExactAlgebra.Settings.File
import ExactAlgebra.Settings.Reference
import ExactAlgebra.Text.JsonString

/-!
# Sections

A section holds its own keys and then those of the defaults that it does not set, all of them with
their references replaced.

* `Settings.sectionOf`: the section of a name.
* `Settings.Section.json`: a section as a JSON object.
-/

namespace ExactAlgebra.Settings

structure Section where
  name : String
  values : Ledger String String

/-- The values of a section as they are written: its own, then the defaults that it does not set. -/
def written (s : Settings) (own : Ledger String String) : Ledger String String :=
  ⟨own.entries ++ s.defaults.entries.filter fun (key, _) => !own.contains key⟩

/-- The section of a name; an unknown section is empty. -/
def sectionOf (s : Settings) (name : String) : Except Fault Section :=
  match s.sections.get? name with
  | none => .ok ⟨name, .empty⟩
  | some own => do
    let written := s.written own
    let entries ← written.entries.mapM fun (key, value) => do
      let expanded ← expand ⟨name, key, value⟩ written.get? referenceLimit value.toList
      return (key, String.ofList expanded)
    return ⟨name, ⟨entries⟩⟩

namespace Section

def fullName (s : Section) : String := "exalt." ++ s.name

/-- The value of a key, which must be given in lower case. -/
def get? (s : Section) (key : String) : Option String := s.values.get? key

def missing (s : Section) (key : String) : String :=
  s.fullName ++ " has no value for " ++ Text.quoted key

/-- A key and its value on a line of a JSON object. -/
def jsonLine (key value : String) : String :=
  "    " ++ String.ofList (Text.jsonString key.toList) ++ ": " ++
    String.ofList (Text.jsonString value.toList)

/-- The section as a JSON object with its keys in order. -/
def json (s : Section) : String :=
  match s.values.sorted (fun a b => compareOfLessAndEq a b) with
  | [] => "\x7b\x7d"
  | entries =>
    "\x7b\n" ++ String.intercalate ",\n" (entries.map fun (key, value) => jsonLine key value) ++
      "\n\x7d"

/-- The section with the place it was found in. -/
def description (s : Section) (place : String) : String :=
  s.fullName ++ "(" ++ place ++ "):\n" ++ s.json

end Section

end ExactAlgebra.Settings
