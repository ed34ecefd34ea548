import ExactAlgebra.Console
import ExactAlgebra.Settings

/-!
# The command line

Reads the settings, the arguments and the input, and prints what the console makes of them.
-/

namespace ExactAlgebra.Console

def directoryOf : Settings.Place → IO (Option String)
  | .current => return some "."
  | .home => IO.getEnv "HOME"
  | .homeConfig => return (← IO.getEnv "HOME").map (· ++ "/.config")
  | .system => return some "/etc/exalt"
  | .variable => IO.getEnv "EXALT_INI"
  | .package => return none

/-- The text of the settings file in a place, if there is one. -/
def settingsFile (place : Settings.Place) : IO (Option String) := do
  match ← directoryOf place with
  | none => return none
  | some directory =>
    try return some (← IO.FS.readFile (directory ++ "/exalt.ini"))
    catch _ => return none

def findSettings : IO (Settings.Place × String) := do
  let files ← Settings.Place.searched.mapM fun place => return (place, ← settingsFile place)
  let file (place : Settings.Place) := (files.find? (·.1 = place)).bind Prod.snd
  return Settings.find file

def readSettings (text : String) : Except Settings.Fault (String × Int) := do
  let settings ← Settings.parse text
  return (← settings.styleName, ← settings.depth)

def usage : String :=
  "usage: exalt [-h] [-e] [-l NAME=VALUE] [-s] [--style function|latex|tex|text] [-v]" ++
    " [expressions ...]"

/-- Runs the console on the arguments, or on the lines of the input if they hold no expression. -/
def start (arguments : List String) : IO UInt32 := do
  match Options.ofArguments arguments with
  | .error stop =>
    match stop with
    | .help => IO.println usage
    | .usage => IO.eprintln usage
    return stop.status.toUInt32
  | .ok options =>
    match readSettings (← findSettings).2 with
    | .error fault =>
      IO.eprintln (fault.message "exalt.ini")
      return 1
    | .ok (styleName, limit) =>
      let input ← if options.operands.isEmpty then (← IO.getStdin).readToEnd else pure ""
      let (task, lines) := plan options input styleName limit
      let report := Console.run task lines
      for line in report.output do IO.println line
      match report.stop with
      | some problem =>
        IO.eprintln problem.message
        return 1
      | none => return report.status.toUInt32

end ExactAlgebra.Console

def main (arguments : List String) : IO UInt32 := ExactAlgebra.Console.start arguments
