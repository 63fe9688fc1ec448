import ConfigSteward.Name.Backup
import ConfigSteward.World.Files

/-! # The store of backups

Backups are files in one folder, made exclusively and never written again. Their stamps never run
backwards for one artifact, and backups of one second are told apart by a counter, so the names of
an artifact's backups grow as they are made.
-/
namespace ConfigSteward

structure Backup where
  name : String
  artifact : String
  /-- The second in which it was made, `none` standing for the present. -/
  created : Option Civil
  size : Nat
  deriving DecidableEq, Repr

/-- The folder that holds the backups, as a place. -/
structure Store where
  folder : Place
  deriving DecidableEq, Repr

namespace Store

/-- The greatest counter within one second. -/
def lastCounter : Nat := 99

/-- Open the store in a folder, which is made if it is missing. -/
def openIn (p : Path) : Task Store := do
  let folder ← Task.resolve p
  Task.ofFile (FileTask.ensureFolder folder.path)
  return ⟨folder⟩

def pathOf (s : Store) (name : String) : Path := s.folder.path.child name

/-- The reading for the next backup of an artifact, never before an earlier one. -/
def nextReading (artifact : String) : Task Civil := do
  let now ← Task.request .clock
  let reading := match ← Task.request (.latest artifact) with
    | some last => Civil.latest now last
    | none => now
  Task.request (.note artifact reading)
  return reading

/-- Make the backup under the first counter from `counter` on whose name is free. -/
def createFrom (s : Store) (artifact : String) (content : Bytes) (reading : Civil) (counter : Nat) :
    Nat → Task Backup
  | 0 => Task.refuse (.backup
      s!"Too many backups of {artifact} within {Stamp.write reading}; try again in a second")
  | tries + 1 => do
    let name := Name.writeBackup artifact reading counter
    match ← Task.attemptFile (FileTask.createWith (s.pathOf name) content) with
    | .ok () => return ⟨name, artifact, some reading, content.length⟩
    | .error f =>
      if f.cause = .alreadyThere then createFrom s artifact content reading (counter + 1) tries
      else Task.refuse (.backup s!"Error writing backup {name}: {f.message}")

/-- Make a backup of an artifact with the given content. -/
def create (s : Store) (artifact : String) (content : Bytes) : Task Backup := do
  if Name.isSafe artifact then
    let reading ← nextReading artifact
    createFrom s artifact content reading 0 (lastCounter + 1)
  else Task.refuse (.invalidName ("Invalid artifact name: " ++ artifact))

/-- The owner and the time of a backup: from its name if that has the form of a backup's name, else
the name without its ending and the time of the last change. -/
def ownerAndTime (name : String) (changed : Changed) :
    Except Stamp.Fault (String × Option Civil) :=
  match Name.parse? name with
  | some parts =>
    (Stamp.readChars parts.stamp).map fun c => (String.ofList parts.artifact, some c)
  | none => changed.reading?.map fun c => (Name.dropSuffix Name.backupSuffix name, c)

/-- Describe an entry of the folder, if it is a backup of the wanted artifact. -/
def describe (s : Store) (wanted : Option String) (name : String) : Task (Option Backup) := do
  if Name.endsIn Name.backupSuffix name then
    if ← Task.ofFile (FileTask.isFile (s.pathOf name)) then
      let status ← Task.ofFile (FileTask.look (s.pathOf name))
      match ownerAndTime name status.changed with
      | .error f => throw (.badStamp f)
      | .ok (owner, created) =>
        let unwanted := match wanted with
          | some artifact => artifact ≠ "" && owner ≠ artifact
          | none => false
        return if unwanted then none else some ⟨name, owner, created, status.size⟩
    else return none
  else return none

/-- Describe the entries one after the other. -/
def describeAll (s : Store) (wanted : Option String) : List String → Task (List Backup)
  | [] => return []
  | name :: names => do
    match ← s.describe wanted name with
    | some b => return b :: (← describeAll s wanted names)
    | none => describeAll s wanted names

/-- Whether one backup comes before another in a listing: the greater name first. -/
def listsBefore (a b : Backup) : Bool := b.name ≤ a.name

/-- The backups, of one artifact if one is wanted, greatest name first. -/
def list (s : Store) (wanted : Option String) : Task (List Backup) := do
  let names ← Task.ofFileOr (fun f => .fileAccess ("Error listing backups: " ++ f.message))
    (FileTask.list s.folder.path)
  return (← s.describeAll wanted names).mergeSort listsBefore

def noBackup (name : String) : Refusal :=
  ⟨.notFound, "backup not found", [("name", .text name)]⟩

/-- The path of an existing backup. Whatever links there are, it lies directly in the folder. -/
def find (s : Store) (name : String) : Task Path := do
  let invalid : Refusal := .invalidName ("Invalid backup name: " ++ name)
  if Name.isSafe name && Name.endsIn Name.backupSuffix name then
    let place ← Task.resolve (s.pathOf name)
    if place.dropLast = s.folder then
      if ← Task.ofFile (FileTask.isFile place.path) then return place.path
      else Task.refuse (noBackup name)
    else Task.refuse invalid
  else Task.refuse invalid

/-- The content of a backup. -/
def get (s : Store) (name : String) : Task Bytes := do
  let path ← s.find name
  Task.ofFileOr (fun f => .fileAccess s!"Error reading backup {name}: {f.message}")
    (FileTask.read path)

/-- Take a backup away. -/
def delete (s : Store) (name : String) : Task Unit := do
  let path ← s.find name
  match ← Task.attemptFile (FileTask.unlink path) with
  | .ok () => return ()
  | .error f =>
    if f.cause = .noEntry then Task.refuse (noBackup name)
    else Task.refuse (.fileAccess s!"Error deleting backup {name}: {f.message}")

end Store
end ConfigSteward
