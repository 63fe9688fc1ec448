import ConfigSteward.Text.Case
import ConfigSteward.Text.Quoted

/-! # Levels of the log

A level is named by a word in letters of either case; words that name none stand for the level of
plain information. Two words of the log's own vocabulary name something else than a level and are
faults.
-/
namespace ConfigSteward.Level

inductive Fault where
  | unknownLevel (text : String)
  | notALevel
  deriving DecidableEq, Repr

/-- The form of a line of the log. -/
def lineFormat : String := "%(levelname)s:%(name)s:%(message)s"

def number (word : String) : Except Fault Nat :=
  match Text.asciiUpper word with
  | "CRITICAL" => .ok 50
  | "FATAL" => .ok 50
  | "ERROR" => .ok 40
  | "WARNING" => .ok 30
  | "WARN" => .ok 30
  | "INFO" => .ok 20
  | "DEBUG" => .ok 10
  | "NOTSET" => .ok 0
  | "BASIC_FORMAT" => .error (.unknownLevel lineFormat)
  | "_STYLES" => .error .notALevel
  | _ => .ok 20

def Fault.message : Fault → String
  | unknownLevel text => "Unknown level: " ++ Text.quoted text
  | notALevel => "Level not an integer or a valid string"

end ConfigSteward.Level
