import ConfigSteward.Settings.Basic

/-! # Rules and libraries

A library reads documents and checks the values that are given for the settings. The rules by which
it converts a value are one for each kind of content; `Rules.convert` says which kind a field has and
within which bounds its value lies.
-/
namespace ConfigSteward.Settings

/-- How values are converted, or the reasons why they are not. -/
structure Rules (ρ : Type) where
  path : Value → Except ρ Path
  text : Value → Except ρ String
  /-- A whole number, at least the first bound and at most the second. -/
  int (least most : Int) : Value → Except ρ Int
  /-- A number greater than zero. -/
  positive : Value → Except ρ Binary64
  /-- The reason why a key that names no field is refused. -/
  unknownKey : ρ

/-- A refused value, under its key. -/
structure Issue (ρ : Type) where
  key : String
  reason : ρ
  deriving DecidableEq, Repr

/-- What reads documents and checks values. A document that cannot be read has a fault in `φ`, and a
value is refused for a reason in `ρ`. -/
structure Library (φ ρ : Type) extends Rules ρ where
  parse : String → Except φ Value
  /-- The settings with given values, the others at their defaults. -/
  validate : Values → Except (List (Issue ρ)) Settings
  /-- How a fault of a document is told. -/
  tellFault : φ → String
  /-- How the reason for a refusal is told. -/
  tellReason : ρ → String

/-- The rule by which a field takes a value. -/
def Rules.convert {ρ : Type} (rules : Rules ρ) : (f : Field) → Value → Except ρ f.Content
  | .configPath | .serversDir | .backupsDir => rules.path
  | .nginxBin | .processName | .host | .logLevel => rules.text
  | .commandTimeout => rules.positive
  | .port => fun v => (rules.int 1 65535 v).map Int.toNat

end ConfigSteward.Settings
