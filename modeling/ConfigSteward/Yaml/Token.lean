/-! # Tokens of YAML documents -/
namespace ConfigSteward.Yaml

/-- The kinds of the language that a document may be written in. -/
inductive Version where
  /-- Version 1.1, with its larger stock of words and numbers. -/
  | older
  | current
  deriving DecidableEq, Repr

/-- A tag as it is written: a handle, if it has one, and the rest. -/
structure Tag where
  handle : Option String
  suffix : String
  deriving DecidableEq, Repr

inductive Token where
  | streamStart
  | streamEnd
  | versionDirective (major minor : Nat)
  | tagDirective (handle replacement : String)
  | otherDirective
  | documentStart
  | documentEnd
  | blockSequenceStart
  | blockMappingStart
  | blockEnd
  | flowSequenceStart
  | flowSequenceEnd
  | flowMappingStart
  | flowMappingEnd
  | blockEntry
  | flowEntry
  | key
  | value
  | alias (name : String)
  | anchor (name : String)
  | tag (t : Tag)
  | scalar (text : String) (plain : Bool)
  /-- The place kept for a key before a token that may start one. -/
  | slot
  deriving DecidableEq, Repr

end ConfigSteward.Yaml
