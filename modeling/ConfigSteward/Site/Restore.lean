import ConfigSteward.Site.Basic

/-! # Restoring backups

A backup goes back to the file that it was taken from, which its name tells: the primary
configuration or a server file. What the file holds is backed up first. The configuration is checked
afterwards, and the verdict is reported without undoing anything.
-/
namespace ConfigSteward

/-- What restoring a backup did. -/
structure Restored where
  artifact : String
  path : Path
  /-- The backup of what the file held before. -/
  backup : Option String
  valid : Bool
  output : String
  deriving DecidableEq, Repr

namespace Site

/-- The file that a backup goes back to. -/
def restoreTarget (s : Site) (backup : String) : Except Refusal Path :=
  match Name.artifactOf backup with
  | .error refusal => .error refusal
  | .ok artifact =>
    if artifact = s.config.name then .ok s.config
    else if Name.isServerFile artifact && Name.isSafe artifact then .ok (s.servers.child artifact)
    else .error (.invalidName s!"Cannot determine which file {backup} belongs to")

/-- Back up what a file holds, if it is there, and give the backup's name. -/
def safetyBackup (s : Site) (target : Path) : Task (Option String) := do
  if ← Task.ofFile (FileTask.exists? target) then
    let current ← Task.ofFileOr
      (fun f => .backup s!"Cannot read {target.name} for a safety backup: {f.message}")
      (FileTask.read target)
    return some (← s.store.create target.name current).name
  else return none

def restoreBackup (s : Site) (name : String) : Task Restored := do
  let content ← s.store.get name
  let target ← match s.restoreTarget name with
    | .ok target => pure target
    | .error refusal => Task.refuse refusal
  Lock.hold [target] do
    let backup ← s.safetyBackup target
    Task.ofFileOr (fun f => .fileAccess s!"Error restoring {target.name}: {f.message}")
      (FileTask.replace target content)
    let result ← s.controller.validate s.config.text
    return ⟨target.name, target, backup, result.exitOk, result.output⟩

end Site
end ConfigSteward
