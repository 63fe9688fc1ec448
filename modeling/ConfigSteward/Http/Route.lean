import ConfigSteward.Files.Path
import ConfigSteward.Http.Target

/-! # Routes

A route is a method, a pattern of the path and the endpoint that it leads to. A pattern is matched
piece by piece between slashes and looks past one line break at the end of the path. `dispatch` says
where a request goes; the first route that fits wins.
-/
namespace ConfigSteward.Http

/-- What the service can be asked for. -/
inductive Endpoint where
  | health
  | readConfig
  | saveConfig
  | testConfig
  | reload
  | status
  | control (action : String)
  | listServers
  | readServer (name : String)
  | saveServer (name : String)
  | createServer
  | renameServer (name : String)
  | deleteServer (name : String)
  | listBackups
  | createBackup
  | restoreBackup (name : String)
  | deleteBackup (name : String)
  deriving DecidableEq, Repr

/-- A piece of a pattern: a fixed text, or any text that is not empty. -/
inductive Piece where
  | fixed (text : String)
  | any
  deriving DecidableEq, Repr

structure Route where
  method : String
  pattern : List Piece
  /-- The endpoint, given the text that stands where the pattern allows any. -/
  endpoint : String → Endpoint

namespace Route

/-- The pattern below `/api`. -/
def below (pieces : List Piece) : List Piece := .fixed "" :: .fixed "api" :: pieces

/-- All routes in the order in which they are tried. -/
def table : List Route := [
  ⟨"GET", below [.fixed "health"], fun _ => .health⟩,
  ⟨"GET", below [.fixed "config"], fun _ => .readConfig⟩,
  ⟨"PUT", below [.fixed "config"], fun _ => .saveConfig⟩,
  ⟨"POST", below [.fixed "config", .fixed "test"], fun _ => .testConfig⟩,
  ⟨"POST", below [.fixed "config", .fixed "reload"], fun _ => .reload⟩,
  ⟨"GET", below [.fixed "nginx", .fixed "status"], fun _ => .status⟩,
  ⟨"POST", below [.fixed "nginx", .any], .control⟩,
  ⟨"GET", below [.fixed "servers"], fun _ => .listServers⟩,
  ⟨"GET", below [.fixed "servers", .any], .readServer⟩,
  ⟨"PUT", below [.fixed "servers", .any], .saveServer⟩,
  ⟨"POST", below [.fixed "servers"], fun _ => .createServer⟩,
  ⟨"PATCH", below [.fixed "servers", .any], .renameServer⟩,
  ⟨"DELETE", below [.fixed "servers", .any], .deleteServer⟩,
  ⟨"GET", below [.fixed "backups"], fun _ => .listBackups⟩,
  ⟨"POST", below [.fixed "backups"], fun _ => .createBackup⟩,
  ⟨"POST", below [.fixed "backups", .any, .fixed "restore"], .restoreBackup⟩,
  ⟨"DELETE", below [.fixed "backups", .any], .deleteBackup⟩]

/-- Match pieces of a path; the result is the text that stands where the pattern allows any, empty
if it allows none. -/
def capture? : List Piece → List String → Option String
  | [], [] => some ""
  | .fixed text :: ps, piece :: pieces => if piece = text then capture? ps pieces else none
  | .any :: ps, piece :: pieces =>
    if piece = "" then none else (capture? ps pieces).map fun _ => piece
  | _, _ => none

def piecesOf (path : List Char) : List String := (Path.pieces path).map String.ofList

/-- Match a path as it is, or else without the line break that may end it. -/
def match? (r : Route) (path : String) : Option Endpoint :=
  let exact := capture? r.pattern (piecesOf path.toList)
  let text? := match exact with
    | some text => some text
    | none =>
      if path.toList.getLast? = some '\n' then capture? r.pattern (piecesOf path.toList.dropLast)
      else none
  text?.map r.endpoint

end Route

/-- Where a request goes. -/
inductive Dispatch where
  | endpoint (e : Endpoint)
  /-- The path is known, but only for other methods, of which this one comes first. -/
  | wrongMethod (allowed : String)
  /-- The path is known but for the slashes at its end. -/
  | redirect (path : String)
  | unknown
  deriving DecidableEq, Repr

/-- A path without the slashes at its end, or with one if there is none. -/
def toggleSlash (path : String) : String :=
  if path.toList.getLast? = some '/' then
    String.ofList (path.toList.reverse.dropWhile (· = '/')).reverse
  else path ++ "/"

def dispatch (method path : String) : Dispatch :=
  let fitting := Route.table.filterMap fun r => (r.match? path).map fun e => (r.method, e)
  match fitting.find? (·.1 = method), fitting with
  | some f, _ => .endpoint f.2
  | none, f :: _ => .wrongMethod f.1
  | none, [] =>
    let other := toggleSlash path
    if path ≠ "/" && Route.table.any fun r => (r.match? other).isSome then .redirect other
    else .unknown

end ConfigSteward.Http
