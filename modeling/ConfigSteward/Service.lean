import ConfigSteward.Settings.Basic
import ConfigSteward.Settings.Level
import ConfigSteward.Site.Restore
import ConfigSteward.Site.Servers

/-! # The service

A service is a site built from settings. Opening it sets the log's level and makes the folder of the
backups; everything else about it is in the tree, so a service can be opened anew at any time.
-/
namespace ConfigSteward

/-- What a web server is started with. -/
structure Launch where
  host : String
  port : Nat
  /-- The level of the web server's own log. -/
  logLevel : String
  /-- The level of the service's log. -/
  level : Nat
  settings : Settings
  deriving Repr

/-- Why a service cannot be opened. -/
inductive OpeningFault where
  | level (f : Level.Fault)
  | failed (f : Failure)
  deriving Repr

namespace Service

def title : String := "nginx admin"

def version : String := "0.1.0"

/-- The controller that settings describe. -/
def controllerOf (s : Settings) : Controller :=
  { program := s.nginxBin, config := some s.configPath, process := s.processName }

/-- How the web server is started for settings. -/
def launch (s : Settings) : Except Level.Fault Launch :=
  (Level.number s.logLevel).map fun level =>
    ⟨s.host, s.port, Text.lowercase s.logLevel, level, s⟩

/-- Open the site that settings describe. -/
def openSite (s : Settings) : Task Site := do
  let store ← Store.openIn s.backupsDir
  return ⟨s.configPath, s.serversDir, store, controllerOf s⟩

/-- Set the log's level and open the site. -/
def start (s : Settings) : Plan (Except OpeningFault Site) :=
  match Level.number s.logLevel with
  | .error f => return .error (.level f)
  | .ok _ => do
    match ← (openSite s).run with
    | .ok site => return .ok site
    | .error f => return .error (.failed f)

end Service
end ConfigSteward
