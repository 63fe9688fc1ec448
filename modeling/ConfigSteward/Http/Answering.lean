import ConfigSteward.Http.Body
import ConfigSteward.Http.Origin
import ConfigSteward.Http.Route
import ConfigSteward.Service

/-! # Answering requests

`answer` carries a request to the operation that it asks for and turns the result into an answer. A
refusal brings its own status and body; any other failure is an internal error, which is told
without the header for other origins.
-/
namespace ConfigSteward.Http

/-- How a time that is the present is written. -/
def present : Json := .text "now"

def serverJson (e : ServerEntry) : Json :=
  .object [("name", .text e.name), ("path", .text e.path.text), ("size", .nat e.size),
    ("updated", (e.updated.map Json.int).getD present)]

def backupJson (b : Backup) : Json :=
  .object [("name", .text b.name), ("size", .nat b.size),
    ("created", (b.created.map fun c => .text c.iso).getD present)]

def processesFields (p : Controller.Processes) : List (String × Json) :=
  [("running", .bool p.running), ("pids", .list (p.pids.map .text))]

/-- Status and body of an answer. -/
abbrev Reply := Nat × List (String × Json)

def ok (fields : List (String × Json)) : Reply := (200, fields)

def message (text : String) : String × Json := ("message", .text text)

/-- End with the refusal that an outcome calls for. -/
def demandSuccess (o : Outcome) : Task Unit :=
  match o.refusal? with
  | some refusal => Task.refuse refusal
  | none => pure ()

/-- The fields of a body, read by `reader`. -/
def demand {α : Type} (reader : List (String × Json) → Except (List Complaint) α)
    (fields : List (String × Json)) : Task α :=
  match reader fields with
  | .ok a => pure a
  | .error complaints => Task.refuse (invalidRequest complaints)

/-- Check the primary configuration; a failed check is an answer, not a refusal. -/
def testReply (s : Site) : Task Reply := do
  let result ← s.testConfig
  let status := if result.exitOk then 200 else if result.timedOut then 504 else 400
  return (status, [("success", .bool result.exitOk), ("output", .text result.output)])

def controlReply (s : Site) (action : String) : Task Reply := do
  match Controller.Action.ofName? action with
  | none => Task.refuse (.notFound ("unknown action: " ++ action))
  | some a =>
    let result ← s.controller.perform a
    Controller.refuseFailed result (a.name ++ " failed") .control
    return ok [message a.past, ("output", .text result.output)]

def reloadReply (s : Site) : Task Reply := do
  let result ← s.controller.reload
  Controller.refuseFailed result "reload failed" .reload
  return ok [message "reloaded", ("output", .text result.output)]

def saveConfigReply (s : Site) (content : RawText) : Task Reply := do
  let o ← s.saveConfig content
  demandSuccess o
  return ok [message "saved, tested and reloaded", ("backup", Json.ofText? o.backup),
    ("output", .text o.validationOutput), ("reload", .text o.reloadOutput)]

def saveServerReply (s : Site) (name : String) (content : RawText) : Task Reply := do
  let o ← s.saveServer name content
  demandSuccess o
  return ok [message "saved and reloaded", ("backup", Json.ofText? o.backup),
    ("output", .text o.reloadOutput)]

def restoreReply (s : Site) (name : String) : Task Reply := do
  let r ← s.restoreBackup name
  return ok [message "restored", ("artifact", .text r.artifact), ("backup", Json.ofText? r.backup),
    ("valid", .bool r.valid), ("output", .text r.output)]

/-- Carry out what an endpoint stands for; `fields` are those of the request's body. -/
def reply (s : Site) (fields : List (String × Json)) : Endpoint → Task Reply
  | .health => return ok [("status", .text "ok"), ("version", .text Service.version)]
  | .readConfig => do
    let d ← s.readConfig
    return ok [("content", .text d.content), ("path", .text d.path.text)]
  | .saveConfig => do saveConfigReply s (← demand contentOf fields)
  | .testConfig => testReply s
  | .reload => reloadReply s
  | .status => return ok (processesFields (← s.controller.status))
  | .control action => controlReply s action
  | .listServers => return ok [("servers", .list ((← s.listServers).map serverJson))]
  | .readServer name => do
    let d ← s.readServer name
    return ok [("name", .text d.name), ("content", .text d.content), ("path", .text d.path.text)]
  | .saveServer name => do saveServerReply s name (← demand contentOf fields)
  | .createServer => do
    let (name, content) ← demand newServerOf fields
    let p ← s.createServer name content
    return ok [message "file created", ("name", .text p.name), ("path", .text p.text)]
  | .renameServer name => do
    let (old, new) ← s.renameServer name (← demand newNameOf fields)
    return ok [message "file renamed", ("oldName", .text old), ("newName", .text new)]
  | .deleteServer name =>
    return ok [message "file deleted", ("backup", Json.ofText? (← s.deleteServer name))]
  | .listBackups => return ok [("backups", .list ((← s.store.list none).map backupJson))]
  | .createBackup => return ok [message "backup created", ("name", .text (← s.createBackup))]
  | .restoreBackup name => restoreReply s name
  | .deleteBackup name => do
    s.store.delete name
    return ok [message "backup deleted", ("name", .text name)]

/-- Whether an endpoint reads the body of its request. -/
def Endpoint.takesBody : Endpoint → Bool
  | saveConfig | saveServer _ | createServer | renameServer _ => true
  | _ => false

/-- The fields of a request's body for an endpoint; without one that it reads there are none. -/
def fieldsFor (e : Endpoint) (r : Request) : Except BodyFault (List (String × Json)) :=
  if e.takesBody then readObject r else .ok []

def refusalAnswer (r : Refusal) : Answer := ⟨r.status, [], .json r.body⟩

/-- The answer of an endpoint. -/
def endpointAnswer (s : Site) (e : Endpoint) (r : Request) : Plan Answer :=
  match fieldsFor e r with
  | .error .unreadable =>
    return shared r (.detail 400 "There was an error parsing the body" [])
  | .error (.complaints cs) => return shared r (refusalAnswer (invalidRequest cs))
  | .ok fields => do
    match ← (reply s fields e).run with
    | .ok (status, fields) => return shared r ⟨status, [], .json fields⟩
    | .error (.refused refusal) => return shared r (refusalAnswer refusal)
    | .error failure =>
      return ⟨500, [], .json [("error", .text ("Internal error: " ++ failure.message))]⟩

/-- The address to which a request is sent on. -/
def location (host path query : String) : String :=
  escape ("http://" ++ host ++ path ++ if query = "" then "" else "?" ++ query)

def answer (s : Site) (r : Request) : Plan Answer :=
  match preflight? r with
  | some a => return a
  | none =>
    match dispatch r.method r.path with
    | .endpoint e => endpointAnswer s e r
    | .wrongMethod allowed =>
      return shared r (.detail 405 "Method Not Allowed" [("allow", allowed)])
    | .redirect path =>
      return shared r
        ⟨307, [("location", location ((r.header? "host").getD "") path r.query)], .text ""⟩
    | .unknown => return shared r (.detail 404 "Not Found" [])

end ConfigSteward.Http
