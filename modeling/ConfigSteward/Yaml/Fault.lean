import ConfigSteward.Text.Quoted

/-! # Faults of YAML documents

Most faults are one and the same to the reader of settings: the document is malformed. The others
come from scalars whose form announces a number or a date that does not exist.
-/
namespace ConfigSteward.Yaml

inductive Fault where
  | malformed
  /-- An escape names no character. -/
  | noCharacter
  | notAFloat (text : String)
  | notAnInteger (base : Nat) (text : String)
  | tooManyDigits (count : Nat)
  /-- A text without the digits that a number starts with. -/
  | emptyNumber
  | notABool (text : String)
  | monthOutOfYear
  | dayOutOfMonth
  | yearZero
  | hourOutOfDay
  | minuteOutOfHour
  | secondOutOfMinute
  | dateOutOfRange
  /-- A key holds a list within a list. -/
  | keyTooDeep
  deriving DecidableEq, Repr

def Fault.message : Fault → String
  | malformed => "malformed document"
  | noCharacter => "chr() arg not in range(0x110000)"
  | notAFloat text => "could not convert string to float: " ++ Text.quoted text
  | notAnInteger base text =>
    s!"invalid literal for int() with base {base}: " ++ Text.quoted text
  | tooManyDigits count =>
    s!"Exceeds the limit (4300 digits) for integer string conversion: value has {count} digits; "
      ++ "use sys.set_int_max_str_digits() to increase the limit"
  | emptyNumber => "string index out of range"
  | notABool text => Text.quoted text
  | monthOutOfYear => "month must be in 1..12"
  | dayOutOfMonth => "day is out of range for month"
  | yearZero => "year 0 is out of range"
  | hourOutOfDay => "hour must be in 0..23"
  | minuteOutOfHour => "minute must be in 0..59"
  | secondOutOfMinute => "second must be in 0..59"
  | dateOutOfRange => "date value out of range"
  | keyTooDeep => "unhashable type"

end ConfigSteward.Yaml
