import ConfigSteward.Backup.Store
import ConfigSteward.Command.Controller
import ConfigSteward.Lock
import ConfigSteward.Save.Outcome

/-! # Saving a file safely

`Save.run` puts new content in a file's place: it backs up what is there, replaces it in one step,
has the configuration checked and the server reload it. A failed check puts back exactly what was
there; a failed reload keeps the new content, which has passed its check. The file's lock is held
throughout.
-/
namespace ConfigSteward

/-- What to save and how. -/
structure Save where
  path : Path
  content : Bytes
  /-- The name under which the file is backed up. -/
  artifact : String
  /-- The file that is checked, if not the saved one. -/
  checkedFile : Option String := none
  reload : Bool := true
  deriving DecidableEq, Repr

namespace Save

/-- A failure to run a program counts as a failed program whose output tells the failure. -/
def resultOf (task : Task CommandResult) : Task CommandResult := do
  match ← task.attempt with
  | .ok result => return result
  | .error failure => return .failed failure.message

/-- The content of a file, `none` if there is none. -/
def priorContent (p : Path) : FileTask (Option Bytes) := do
  match ← FileTask.attempt (FileTask.read p) with
  | .ok bytes => return some bytes
  | .error f => if f.cause = .noEntry then return none else throw f

/-- Take a file away, if it is there. -/
def unlinkIfThere (p : Path) : FileTask Unit := do
  match ← FileTask.attempt (FileTask.unlink p) with
  | .ok () => return ()
  | .error f => if f.cause = .noEntry then return () else throw f

/-- Put back what was there before. -/
def putBack (p : Path) : Option Bytes → FileTask Unit
  | none => unlinkIfThere p
  | some bytes => FileTask.replace p bytes

/-- The outcome after an attempt to put back what was there before. -/
def rollBack (s : Save) (prior : Option Bytes) (o : Outcome) : Task Outcome := do
  match ← Task.attemptFile (putBack s.path prior) with
  | .ok () => return { o with applied := false, rolledBack := true }
  | .error f =>
    return { o with message := "config test failed and rollback failed: " ++ f.message }

/-- The last step: ask the server to reload. -/
def reloadStep (s : Save) (c : Controller) (o : Outcome) : Task Outcome := do
  if s.reload then
    let result ← resultOf c.reload
    let o := { o with reloadAttempted := true, reloadOutput := result.output }
    if result.exitOk then return { o with reloaded := true }
    else if result.timedOut then
      return { o with error := some .timeout, message := some "config saved but reload timed out" }
    else
      return { o with
        error := some .reloadFailed, message := some "config saved but reload failed" }
  else return o

/-- Have the new content checked; roll back or go on to the reload. -/
def checkStep (s : Save) (c : Controller) (prior : Option Bytes) (o : Outcome) : Task Outcome := do
  let file := match s.checkedFile with
    | some text => if text = "" then s.path.text else text
    | none => s.path.text
  let result ← resultOf (c.validate file)
  let o := { o with validationOutput := result.output }
  if result.exitOk then s.reloadStep c { o with validated := true }
  else if result.timedOut then
    s.rollBack prior
      { o with error := some .timeout, message := some "config test timed out" }
  else
    s.rollBack prior
      { o with error := some .validationFailed, message := some "config test failed" }

/-- Replace the file, whose prior content is backed up. -/
def writeStep (s : Save) (c : Controller) (prior : Option Bytes) (o : Outcome) : Task Outcome := do
  match ← Task.attemptFile (FileTask.replace s.path s.content) with
  | .ok () => s.checkStep c prior { o with applied := true }
  | .error f =>
    return { o with
      error := some .writeFailed, message := some s!"Error writing {s.artifact}: {f.message}" }

/-- Back up the prior content; without a backup nothing is changed. -/
def backupStep (s : Save) (store : Store) (c : Controller) (prior : Option Bytes) :
    Task Outcome := do
  let o : Outcome := { artifact := s.artifact }
  match ← (store.create s.artifact (prior.getD [])).attempt with
  | .ok backup => s.writeStep c prior { o with backup := some backup.name, backupCreated := true }
  | .error (.refused r) => return { o with error := some .backupFailed, message := r.message }
  | .error failure => throw failure

/-- The save without its lock. -/
def steps (s : Save) (store : Store) (c : Controller) : Task Outcome := do
  match ← Task.attemptFile (priorContent s.path) with
  | .ok prior => s.backupStep store c prior
  | .error f =>
    return {
      artifact := s.artifact, error := some .backupFailed,
      message := some s!"Cannot back up {s.artifact}: {f.message}" }

def run (s : Save) (store : Store) (c : Controller) : Task Outcome :=
  Lock.hold [s.path] (s.steps store c)

end Save
end ConfigSteward
