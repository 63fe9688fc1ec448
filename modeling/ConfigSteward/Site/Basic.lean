import ConfigSteward.Name.Server
import ConfigSteward.Save.Apply

/-! # A site

A site is a primary configuration file, a folder of server files, the store of their backups and the
controller of the server that reads them. Here are the reading and saving of the primary
configuration and what its parts share.
-/
namespace ConfigSteward

structure Site where
  config : Path
  servers : Path
  store : Store
  controller : Controller
  deriving DecidableEq, Repr

/-- A file's text and where it is. -/
structure Document where
  content : String
  path : Path
  deriving DecidableEq, Repr

namespace Site

/-- Read a file as text; `label` names it in refusals. -/
def readText (p : Path) (label : String) : Task String := do
  match ← Task.attemptFile (FileTask.read p) with
  | .ok bytes => return Text.decodeLossy bytes
  | .error f =>
    if f.cause = .noEntry then Task.refuse (.notFound (label ++ " not found"))
    else Task.refuse (.fileAccess s!"Error reading {label}: {f.message}")

/-- The path of a server file. Backups are told apart by file name, so the primary configuration's
name is taken. -/
def serverPath (s : Site) (name : Option String) : Except Refusal Path :=
  match Name.normalizeServer name with
  | .error refusal => .error refusal
  | .ok file =>
    if file = s.config.name then
      .error ⟨.invalidName, some (file ++ " is reserved for the primary config"),
        [("name", .text file)]⟩
    else .ok (s.servers.child file)

def serverPathTask (s : Site) (name : Option String) : Task Path :=
  match s.serverPath name with
  | .ok p => pure p
  | .error refusal => Task.refuse refusal

def readConfig (s : Site) : Task Document := do
  return ⟨← readText s.config "config file", s.config⟩

/-- How content is saved in the primary configuration. -/
def configSave (s : Site) (content : String) : Save :=
  { path := s.config
    content := Text.encodeString content
    artifact := s.config.name
    checkedFile := s.config.text }

/-- Save the primary configuration. A content that cannot be encoded is found out before anything is
touched. -/
def saveConfig (s : Site) : RawText → Task Outcome
  | .whole text => (s.configSave text).run s.store s.controller
  | .broken text => throw (.unencodable text)

def testConfig (s : Site) : Task CommandResult := s.controller.validate s.config.text

/-- Back up the primary configuration and give the backup's name. -/
def createBackup (s : Site) : Task String :=
  Lock.hold [s.config] do
    match ← Task.attemptFile (FileTask.read s.config) with
    | .ok content => return (← s.store.create s.config.name content).name
    | .error f =>
      if f.cause = .noEntry then Task.refuse (.notFound "config file not found")
      else Task.refuse (.fileAccess ("Error reading config file: " ++ f.message))

end Site
end ConfigSteward
