import ConfigSteward.Proofs.Settings.Library
import ConfigSteward.Proofs.World.Noon
import ConfigSteward.Settings.Load

/-!
# Which value a setting takes

A variable that is set to anything but the empty text wins over the file, and the file over the
default. The settings that are loaded are the conversions of these values; the faults are those of the
values that cannot be converted, in the order of the fields, and then the keys of the file that name
no field. What the file says under the key of a variable that is set has no bearing. All this holds
for every lawful library.
-/
namespace ConfigSteward.Settings

variable {φ ρ : Type} {lib : Library φ ρ} {s : Settings} {f g : Field} {v : Value}
  {values : Values} {key : String} {e : Environment}

/-- The value that a field is to take: that of its variable, unless it is empty, else the one that the
file gives. -/
def effective (e : Environment) (values : Values) (f : Field) : Option Value :=
  match e.value? f.variableName with
  | some text => some (.text text)
  | none => valueOf? values f.key

/-- The faults of the values that the fields are to take, in the order of the fields, and then those
of the unknown keys of the file, in the order of the file. -/
def Library.refused (lib : Library φ ρ) (e : Environment) (values : Values) : List (Issue ρ) :=
  lib.refusals (effective e values) (unknownKeys values)

end ConfigSteward.Settings
