import ConfigSteward.Site.Basic
import ConfigSteward.Site.Template

/-! # Server files

Listing, reading, saving, creating, renaming and deleting the files in a site's folder of servers.
A file that is there is never overwritten by creating or renaming.
-/
namespace ConfigSteward

/-- A server file in a listing. `updated` is in whole seconds since 1970, `none` for the present. -/
structure ServerEntry where
  name : String
  path : Path
  size : Nat
  updated : Option Int
  deriving DecidableEq, Repr

/-- A server file's text. -/
structure ServerDocument where
  name : String
  content : String
  path : Path
  deriving DecidableEq, Repr

namespace Site

/-- Describe an entry of the folder, if it is a server file. -/
def describeServer (s : Site) (name : String) : Task (Option ServerEntry) := do
  let p := s.servers.child name
  if Name.endsIn Name.serverSuffix name then
    if ← Task.ofFile (FileTask.isFile p) then
      let status ← Task.ofFile (FileTask.look p)
      return some ⟨name, p, status.size, status.changed.wholeSeconds?⟩
    else return none
  else return none

def describeServers (s : Site) : List String → Task (List ServerEntry)
  | [] => return []
  | name :: names => do
    match ← s.describeServer name with
    | some entry => return entry :: (← describeServers s names)
    | none => describeServers s names

/-- The server files by name. -/
def listServers (s : Site) : Task (List ServerEntry) := do
  let names ← Task.ofFileOr (fun f => .fileAccess ("Error listing servers: " ++ f.message))
    (FileTask.list s.servers)
  s.describeServers (names.mergeSort fun a b => a ≤ b)

def readServer (s : Site) (name : Option String) : Task ServerDocument := do
  let p ← s.serverPathTask name
  return ⟨p.name, ← readText p ("server file " ++ p.name), p⟩

/-- How content is saved in a server file: the primary configuration, which takes the file in, is
what is checked. -/
def serverSave (s : Site) (p : Path) (content : String) : Save :=
  { path := p
    content := Text.encodeString content
    artifact := p.name
    checkedFile := s.config.text }

def saveServer (s : Site) (name : Option String) (content : RawText) : Task Outcome := do
  let p ← s.serverPathTask name
  match content with
  | .whole text => (s.serverSave p text).run s.store s.controller
  | .broken text => throw (.unencodable text)

/-- The content of a new server file: a plain server block unless something else is given. -/
def newContent (content : Option RawText) : RawText :=
  match content with
  | some text => if text = .whole "" then ({} : ServerBlock).render else text
  | none => ({} : ServerBlock).render

/-- Make a new file and write a text to it, which is encoded only then: of one that cannot be encoded
nothing comes into the file. -/
def writeNew (p : Path) : RawText → FileTask Unit
  | .whole text => FileTask.createWith p (Text.encodeString text)
  | .broken _ => FileTask.create p

def createServer (s : Site) (name : Option String) (content : Option RawText) : Task Path := do
  let p ← s.serverPathTask name
  Lock.hold [p] do
    match ← Task.attemptFile (writeNew p (newContent content)) with
    | .ok () =>
      match newContent content with
      | .whole _ => return p
      | .broken text => throw (.unencodable text)
    | .error f =>
      if f.cause = .alreadyThere then
        Task.refuse ⟨.alreadyExists, some "file already exists", [("name", .text p.name)]⟩
      else Task.refuse (.fileAccess s!"Error creating {p.name}: {f.message}")

def noFile (name : String) : Refusal := ⟨.notFound, "file not found", [("name", .text name)]⟩

/-- Rename a server file and give both names. -/
def renameServer (s : Site) (old new : Option String) : Task (String × String) := do
  if new = none || new = some "" then Task.refuse (.invalidName "newName is required")
  let source ← s.serverPathTask old
  let target ← s.serverPathTask new
  Lock.hold [source, target] do
    if !(← Task.ofFile (FileTask.isFile source)) then Task.refuse (noFile source.name)
    if ← Task.ofFile (FileTask.exists? target) then
      Task.refuse ⟨.alreadyExists, some "target file already exists", [("name", .text target.name)]⟩
    Task.ofFileOr (fun f => .fileAccess s!"Error renaming {source.name}: {f.message}")
      (FileTask.move source target)
    return (source.name, target.name)

/-- Back a file up if that is possible. -/
def backUpIfPossible (s : Site) (p : Path) : Task (Option String) := do
  match ← Task.attemptFile (FileTask.read p) with
  | .error _ => return none
  | .ok content =>
    match ← (s.store.create p.name content).attempt with
    | .ok backup => return some backup.name
    | .error (.refused _) => return none
    | .error (.fault _) => return none
    | .error failure => throw failure

/-- Delete a server file, after a backup if one can be made, and give the backup's name. -/
def deleteServer (s : Site) (name : Option String) : Task (Option String) := do
  let p ← s.serverPathTask name
  Lock.hold [p] do
    if !(← Task.ofFile (FileTask.isFile p)) then Task.refuse (noFile p.name)
    let backup ← s.backUpIfPossible p
    match ← Task.attemptFile (FileTask.unlink p) with
    | .ok () => return backup
    | .error f =>
      if f.cause = .noEntry then Task.refuse (noFile p.name)
      else Task.refuse (.fileAccess s!"Error deleting {p.name}: {f.message}")

end Site
end ConfigSteward
