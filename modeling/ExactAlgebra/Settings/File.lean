import ExactAlgebra.Ledger
import ExactAlgebra.Settings.Fault
import ExactAlgebra.Text.Blank
import ExactAlgebra.Text.LowerCase

/-!
# Settings files

Settings are written as named sections with a value for each key.  A line is a section header in
square brackets, a key and a value with an equals sign or a colon between them, a comment that
begins with a number sign or a semicolon, or blank.  A line that is indented more deeply than the
key above it continues the value.  Keys are kept in lower case, keys and values without blanks
around them.  No section but `DEFAULT` and no key of a section may come twice.

* `Settings.parse`: the settings in a text.
-/

namespace ExactAlgebra

/-- Sections by name, each with its values by key as they are written, and the values that are added
to every section. -/
structure Settings where
  sections : Ledger String (Ledger String String)
  defaults : Ledger String String

namespace Settings

def empty : Settings := ⟨.empty, .empty⟩

/-- The name of the section whose keys are added to all others. -/
def defaultSection : String := "DEFAULT"

/-! ## Lines -/

/-- The lines of a text with their ends; a line ends with a line feed, a carriage return or both,
and each of them counts as a line feed. -/
def lines : List Char → List (List Char)
  | [] => []
  | '\r' :: '\n' :: text => ['\n'] :: lines text
  | c :: text =>
    if c = '\n' ∨ c = '\r' then ['\n'] :: lines text
    else
      match lines text with
      | [] => [[c]]
      | line :: rest => (c :: line) :: rest

/-- The name in a section header: what stands between the first bracket and the last closing one. -/
def header? (line : List Char) : Option (List Char) :=
  match line with
  | '[' :: rest =>
    match rest.reverse.dropWhile (· != ']') with
    | _ :: name => if name.isEmpty then none else some name.reverse
    | [] => none
  | _ => none

/-- The character stands between a key and its value. -/
def isDelimiter (c : Char) : Bool := c == '=' || c == ':'

/-- The key, which may be empty, and the value on a line. -/
def entry? (line : List Char) : Option (List Char × List Char) :=
  match line.dropWhile (!isDelimiter ·) with
  | _ :: value =>
    some (Text.lower (Text.trimEnd (line.takeWhile (!isDelimiter ·))), Text.trim value)
  | [] => none

/-! ## Reading -/

/-- A settings file on its way: the settings so far, the section and the key that are being read,
how far the key is indented, and the lines that are neither headers nor entries. -/
structure Reader where
  settings : Settings
  inSection : Option String
  inKey : Option String
  indent : Nat
  malformed : List (Nat × String)

namespace Reader

def start : Reader := ⟨.empty, none, none, 0, []⟩

def valuesOf (r : Reader) (name : String) : Ledger String String :=
  if name == defaultSection then r.settings.defaults
  else (r.settings.sections.get? name).getD .empty

def put (r : Reader) (name key value : String) : Settings :=
  if name == defaultSection then
    { r.settings with defaults := r.settings.defaults.put key value }
  else
    { r.settings with sections := r.settings.sections.put name ((r.valuesOf name).put key value) }

/-- Appends a line to the value that is being read, if there is one. -/
def continueValue (r : Reader) (line : List Char) : Reader :=
  match r.inSection, r.inKey with
  | some name, some key =>
    let value := ((r.valuesOf name).get? key).getD ""
    { r with settings := r.put name key (value ++ "\n" ++ String.ofList line) }
  | _, _ => r

def enter (r : Reader) (number : Nat) (name : String) : Except Fault Reader :=
  if r.settings.sections.contains name then .error (.repeatedSection number name)
  else
    let settings :=
      if name == defaultSection then r.settings
      else { r.settings with sections := r.settings.sections.put name .empty }
    .ok { r with settings, inSection := some name, inKey := none }

/-- Notes a line that is neither a header nor an entry. -/
def refuse (r : Reader) (number : Nat) (line : List Char) : Reader :=
  { r with malformed := r.malformed ++ [(number, String.ofList line)] }

def enterKey (r : Reader) (number : Nat) (name key value : String) : Except Fault Reader :=
  if (r.valuesOf name).contains key then .error (.repeatedKey number name key)
  else
    .ok { r with
      settings := r.put name key value, inKey := if key.isEmpty then none else some key }

/-- Reads a line that continues no value; `content` is the line without the blanks around it. -/
def begin (r : Reader) (number : Nat) (line content : List Char) : Except Fault Reader :=
  match header? content, r.inSection with
  | some name, _ => r.enter number (String.ofList name)
  | none, none => .error (.noHeader number (String.ofList line))
  | none, some name =>
    match entry? content with
    | none => .ok (r.refuse number line)
    | some ([], value) => (r.refuse number line).enterKey number name "" (String.ofList value)
    | some (key, value) => r.enterKey number name (String.ofList key) (String.ofList value)

def step (r : Reader) : List Char × Nat → Except Fault Reader
  | (line, number) =>
    let indent := (line.takeWhile Text.isBlank).length
    match Text.trim line with
    | [] => .ok (r.continueValue [])
    | first :: content =>
      if first = '#' ∨ first = ';' then .ok r
      else if r.inKey.isSome ∧ r.indent < indent then .ok (r.continueValue (first :: content))
      else { r with indent }.begin number line (first :: content)

/-- The values without the blanks at their ends. -/
def trimValues (values : Ledger String String) : Ledger String String :=
  ⟨values.entries.map fun (key, value) => (key, String.ofList (Text.trimEnd value.toList))⟩

def finish (r : Reader) : Except Fault Settings :=
  if r.malformed.isEmpty then
    .ok ⟨⟨r.settings.sections.entries.map fun (name, values) => (name, trimValues values)⟩,
      trimValues r.settings.defaults⟩
  else .error (.malformedLines r.malformed)

end Reader

def parse (text : String) : Except Fault Settings := do
  (← ((lines text.toList).zipIdx 1).foldlM Reader.step .start).finish

end Settings

end ExactAlgebra
