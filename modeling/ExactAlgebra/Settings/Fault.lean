import ExactAlgebra.Text.Quoted

/-!
# Faults of settings

What can be wrong with a settings file or with one of its values.

* `Settings.Fault.message`: one sentence for every cause.
-/

namespace ExactAlgebra.Settings

/-- Where a value stands: its section, its key and how it is written. -/
structure Site where
  inSection : String
  key : String
  written : String

/-- Why settings cannot be read.  Lines are counted from one and given with their ends. -/
inductive Fault where
  /-- A line with content stands before the first section header. -/
  | noHeader (number : Nat) (line : String)
  | repeatedSection (number : Nat) (name : String)
  | repeatedKey (number : Nat) (inSection key : String)
  /-- Some lines are neither headers nor entries. -/
  | malformedLines (lines : List (Nat × String))
  /-- A percent sign that stands for nothing, with the text from there on. -/
  | strayPercent (rest : String)
  /-- A reference that is not closed, with the text from there on. -/
  | openReference (rest : String)
  /-- A reference to a key without a value. -/
  | unknownReference (site : Site) (key : String)
  /-- References lead to references beyond the limit. -/
  | deepReference (site : Site) (limit : Nat)
  /-- A value that should be an integer is none. -/
  | noInteger (written : String)

namespace Fault

/-- The number of a line, two characters wide at least. -/
def lineNumber (number : Nat) : String := (if number < 10 then " " else "") ++ number.repr

def atLine (file : String) (number : Nat) : String :=
  "While reading from " ++ file ++ " [line " ++ lineNumber number ++ "]: "

def optionIn (site : Site) : String :=
  "option " ++ Text.quoted site.key ++ " in section " ++ Text.quoted site.inSection

def message (file : String) : Fault → String
  | .noHeader number line =>
    "File contains no section headers.\nfile: " ++ file ++ ", line: " ++ number.repr ++ "\n" ++
      Text.quoted line
  | .repeatedSection number name =>
    atLine file number ++ "section " ++ Text.quoted name ++ " already exists"
  | .repeatedKey number inSection key =>
    atLine file number ++ "option " ++ Text.quoted key ++ " in section " ++ Text.quoted inSection ++
      " already exists"
  | .malformedLines lines =>
    "Source contains parsing errors: " ++ file ++
      String.join (lines.map fun (number, line) =>
        "\n\t[line " ++ lineNumber number ++ "]: " ++ Text.quoted line)
  | .strayPercent rest => "'%' must be followed by '%' or '(', found: " ++ Text.quoted rest
  | .openReference rest => "bad interpolation variable reference " ++ Text.quoted rest
  | .unknownReference site key =>
    "Bad value substitution: " ++ optionIn site ++ " contains an interpolation key " ++
      Text.quoted key ++ " which is not a valid option name. Raw value: " ++
      Text.quoted site.written
  | .deepReference site limit =>
    "Recursion limit exceeded in value substitution: " ++ optionIn site ++
      " contains an interpolation key which cannot be substituted in " ++ limit.repr ++
      " steps. Raw value: " ++ Text.quoted site.written
  | .noInteger written => "invalid literal for int() with base 10: " ++ Text.quoted written

end Fault

end ExactAlgebra.Settings
