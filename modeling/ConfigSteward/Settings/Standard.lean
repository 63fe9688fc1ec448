import ConfigSteward.Settings.Library
import ConfigSteward.Settings.Numeral
import ConfigSteward.Yaml.Document

/-! # The library in use

`Settings.standard` reads YAML and checks values one field after the other: it reports the faults of
all fields in the fields' order and then the keys that name no field, in the order in which they were
given.
-/
namespace ConfigSteward.Settings

/-- Why a value is refused. -/
inductive Reason where
  | notAPath
  | notAText
  | notUnicode
  | notAnInt
  | intText
  | intTooLong
  | intFraction
  | intInfinite
  | below (least : Int)
  | above (most : Int)
  | notANumber
  | numberText
  | notPositive
  | unknownKey
  deriving DecidableEq, Repr

namespace Reason

/-- The word by which programs tell reasons apart. -/
def word : Reason → String
  | notAPath => "path_type"
  | notAText => "string_type"
  | notUnicode => "string_unicode"
  | notAnInt => "int_type"
  | intText => "int_parsing"
  | intTooLong => "int_parsing_size"
  | intFraction => "int_from_float"
  | intInfinite => "finite_number"
  | below _ => "greater_than_equal"
  | above _ => "less_than_equal"
  | notANumber => "float_type"
  | numberText => "float_parsing"
  | notPositive => "greater_than"
  | unknownKey => "extra_forbidden"

def message : Reason → String
  | notAPath => "Input is not a valid path for <class 'pathlib.Path'>"
  | notAText => "Input should be a valid string"
  | notUnicode => "Input should be a valid string, unable to parse raw data as a unicode string"
  | notAnInt => "Input should be a valid integer"
  | intText => "Input should be a valid integer, unable to parse string as an integer"
  | intTooLong => "Unable to parse input string as an integer, exceeded maximum size"
  | intFraction => "Input should be a valid integer, got a number with a fractional part"
  | intInfinite => "Input should be a finite number"
  | below least => s!"Input should be greater than or equal to {least}"
  | above most => s!"Input should be less than or equal to {most}"
  | notANumber => "Input should be a valid number"
  | numberText => "Input should be a valid number, unable to parse string as a number"
  | notPositive => "Input should be greater than 0"
  | unknownKey => "Extra inputs are not permitted"

end Reason

def toPath : Value → Except Reason Path
  | .text s => .ok (Path.ofText s)
  | _ => .error .notAPath

def toText : Value → Except Reason String
  | .text s => .ok s
  | .bytes bs =>
    match Text.decode? bs with
    | some s => .ok s
    | none => .error .notUnicode
  | _ => .error .notAText

/-- The longest text that is read as a whole number, in bytes. -/
def longestNumeral : Nat := 4300

def intOfText (s : String) : Except Reason Int :=
  if longestNumeral < s.utf8ByteSize then .error .intTooLong
  else
    match Numeral.readInt s.toList with
    | some n => .ok n
    | none => .error .intText

/-- Whole numbers with a fraction or an exponent are taken below this bound. -/
def wholeBound : Nat := Nat.pow 2 63

def intOfFloat (x : Binary64) : Except Reason Int :=
  match x with
  | .nan => .error .intInfinite
  | .infinite _ => .error .intInfinite
  | x =>
    match x.toInt? with
    | none => .error .intFraction
    | some n => if n.natAbs < wholeBound then .ok n else .error .intTooLong

def toInt : Value → Except Reason Int
  | .bool b => .ok (if b then 1 else 0)
  | .int n => .ok n
  | .float x => intOfFloat x
  | .text s => intOfText s
  | .bytes bs =>
    match Text.decode? bs with
    | some s => intOfText s
    | none => .error .intText
  | _ => .error .notAnInt

/-- A whole number within bounds. -/
def toIntWithin (least most : Int) (v : Value) : Except Reason Int :=
  match toInt v with
  | .error reason => .error reason
  | .ok n =>
    if n < least then .error (.below least)
    else if n > most then .error (.above most)
    else .ok n

def floatOfInt (n : Int) : Except Reason Binary64 :=
  match Binary64.ofRatio (n < 0) n.natAbs 1 with
  | .infinite _ => .error .notANumber
  | x => .ok x

def floatOfText (s : String) : Except Reason Binary64 :=
  match Numeral.readFloat s.toList with
  | some x => .ok x
  | none => .error .numberText

def toFloat : Value → Except Reason Binary64
  | .bool b => floatOfInt (if b then 1 else 0)
  | .int n => floatOfInt n
  | .float x => .ok x
  | .text s => floatOfText s
  | .bytes bs =>
    match Text.decode? bs with
    | some s => floatOfText s
    | none => .error .numberText
  | _ => .error .notANumber

/-- A number greater than zero. -/
def toPositive (v : Value) : Except Reason Binary64 :=
  match toFloat v with
  | .error reason => .error reason
  | .ok x => if x.isPositive then .ok x else .error .notPositive

/-! ## Checking -/

section
variable {ρ : Type}

/-- Set fields one after the other and collect the faults. -/
def Rules.setFields (rules : Rules ρ) (values : Values) :
    List Field → Settings → Settings × List (Issue ρ)
  | [], s => (s, [])
  | f :: fs, s =>
    match valueOf? values f.key with
    | none => rules.setFields values fs s
    | some v =>
      match rules.convert f v with
      | .ok c => rules.setFields values fs (s.put f c)
      | .error reason =>
        let (s, issues) := rules.setFields values fs s
        (s, ⟨f.key, reason⟩ :: issues)

/-- The settings with given values, checked by the rules. -/
def Rules.check (rules : Rules ρ) (values : Values) : Except (List (Issue ρ)) Settings :=
  let (s, issues) := rules.setFields values Field.all {}
  let issues := issues ++ (unknownKeys values).map fun key => ⟨key, rules.unknownKey⟩
  if issues.isEmpty then .ok s else .error issues

end

def standardRules : Rules Reason := ⟨toPath, toText, toIntWithin, toPositive, .unknownKey⟩

def standard : Library Yaml.Fault Reason :=
  { standardRules with
    parse := Value.ofYaml
    validate := standardRules.check
    tellFault := Yaml.Fault.message
    tellReason := Reason.message }

end ConfigSteward.Settings
