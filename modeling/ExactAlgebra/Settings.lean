import ExactAlgebra.Settings.Section
import ExactAlgebra.Text.Integer

/-!
# Known settings

Settings are read from the first place that has a settings file, and from no other.

* `Settings.find`: the first place that has a settings file.
* `Settings.depth`, `Settings.styleName`: the settings that the program knows.
-/

namespace ExactAlgebra.Settings

/-! ## Places -/

/-- Where a settings file may be, in the order in which the places are searched. -/
inductive Place where
  | current
  | home
  | homeConfig
  | system
  | variable
  | package
  deriving DecidableEq

/-- The places that may have a file of their own. -/
def Place.searched : List Place := [.current, .home, .homeConfig, .system, .variable]

/-- The settings that come with the program. -/
def packaged : String := "[parsing]\nmax_depth = 200\n\n[console]\nstyle = text\n"

/-- The first place with a settings file, and the text of that file alone. -/
def find (file : Place → Option String) : Place × String :=
  (Place.searched.findSome? fun place => (file place).map (place, ·)).getD (.package, packaged)

/-! ## Values -/

def defaultDepth : Int := 200

def depth (s : Settings) : Except Fault Int := do
  match (← s.sectionOf "parsing").get? "max_depth" with
  | none => return defaultDepth
  | some written =>
    match Text.integer? written.toList with
    | some n => return n
    | none => throw (.noInteger written)

def defaultStyleName : String := "text"

def styleName (s : Settings) : Except Fault String := do
  return ((← s.sectionOf "console").get? "style").getD defaultStyleName

end ExactAlgebra.Settings
