import ConfigSteward.Service
import ConfigSteward.Settings.Load
import ConfigSteward.Settings.Standard

/-! # The command line

The program takes its settings from the environment and from the file that the environment names,
and tells how the web server is started for them. Faults go to the error stream and end it with
code 1.
-/
namespace ConfigSteward.Main

/-- The variables that the program knows and their values. -/
def environment : IO Environment := do
  let names := Settings.fileVariable :: Settings.Field.all.map Settings.Field.variableName
  names.filterMapM fun name => do
    return (← IO.getEnv name).map fun value => (name, value)

/-- The cause that an error of the file system stands for, if it is one that settings report. -/
def causeOf? : IO.Error → Option Cause
  | .noFileOrDirectory .. => some .noEntry
  | .permissionDenied .. => some .accessDenied
  | .inappropriateType .. => some .isDirectory
  | _ => none

/-- What the settings are loaded to. -/
abbrev Loaded := Except (Settings.LoadFault Yaml.Fault Settings.Reason)

def content (file : String) : IO (Loaded Bytes) := do
  try
    return .ok (← IO.FS.readBinFile file).toList
  catch e =>
    match causeOf? e with
    | some cause => return .error (.fault ⟨cause, file, none⟩)
    | none => throw e

def settings : IO (Loaded Settings) := do
  let environment ← environment
  match Settings.chosenFile environment none with
  | none => return Settings.ofSources Settings.standard environment []
  | some file => return Settings.ofContent Settings.standard environment file (← content file)

/-- The line that tells how the web server is started. -/
def announcement (l : Launch) : String :=
  s!"{Service.title} {Service.version} on {l.host}:{l.port}, log level {l.logLevel}"

def outcome (settings : Loaded Settings) : Except String Launch := do
  let settings ← settings.mapError (Settings.LoadFault.message Settings.standard)
  (Service.launch settings).mapError Level.Fault.message

def run : IO UInt32 := do
  match outcome (← settings) with
  | .ok launch =>
    IO.println (announcement launch)
    return 0
  | .error message =>
    IO.eprintln message
    return 1

end ConfigSteward.Main

def main : IO UInt32 := ConfigSteward.Main.run
