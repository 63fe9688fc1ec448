import ConfigSteward.Text.Blank
import ConfigSteward.World.Plan

/-! # Controlling the server

The controller knows the server's program, its primary configuration and the name of its process,
and turns each action into the arguments of a program. A program that ends badly is a result like
any other.
-/
namespace ConfigSteward

structure Controller where
  program : String := "nginx"
  config : Option Path := none
  process : String := "nginx"
  deriving DecidableEq, Repr

namespace Controller

/-- The primary configuration that a text names; an empty one names none. -/
def configOf (text : Option String) : Option Path := (text.filter (· ≠ "")).map Path.ofText

/-- The file that a check reads: the given one, unless its text is empty, else the primary one. -/
def checked (c : Controller) (file : Option String) : Option String :=
  match file with
  | some text => if text = "" then c.config.map Path.text else some text
  | none => c.config.map Path.text

/-- The arguments that name a configuration file. -/
def fileArgs : Option String → List String
  | some file => ["-c", file]
  | none => []

def validateArgs (c : Controller) (file : Option String) : List String :=
  c.program :: "-t" :: fileArgs (c.checked file)

def reloadArgs (c : Controller) : List String := [c.program, "-s", "reload"]

def startArgs (c : Controller) : List String := c.program :: fileArgs (c.config.map Path.text)

def stopArgs (c : Controller) : List String := [c.program, "-s", "stop"]

def statusArgs (c : Controller) : List String := ["pgrep", "-x", c.process]

/-- Run a program; a failure to run it ends the task. -/
def run (args : List String) : Task CommandResult := ExceptT.mk (Plan.request (.run args))

/-- Check a configuration file without touching the server. -/
def validate (c : Controller) (file : Option String) : Task CommandResult :=
  run (c.validateArgs file)

def reload (c : Controller) : Task CommandResult := run c.reloadArgs

def start (c : Controller) : Task CommandResult := run c.startArgs

def stop (c : Controller) : Task CommandResult := run c.stopArgs

/-- Outputs that are not empty, one after the other on lines of their own. -/
def joinOutputs (outputs : List String) : String :=
  "\n".intercalate (outputs.filter (· ≠ ""))

/-- Stop the server and start it, even if it could not be stopped. The result is that of the start,
with the output of both. -/
def restart (c : Controller) : Task CommandResult := do
  let stopped ← c.stop
  let started ← c.start
  return { started with output := joinOutputs [stopped.output, started.output] }

/-- The numbers of the server's processes. -/
structure Processes where
  pids : List String
  deriving DecidableEq, Repr

def Processes.running (p : Processes) : Bool := !p.pids.isEmpty

def status (c : Controller) : Task Processes := do
  let result ← run c.statusArgs
  return ⟨if result.exitOk then Text.words result.output else []⟩

/-- The actions on the server's process that can be asked for by name. -/
inductive Action where
  | start
  | stop
  | restart
  deriving DecidableEq, Repr

namespace Action

def name : Action → String
  | start => "start"
  | stop => "stop"
  | restart => "restart"

/-- What is said once the action is done. -/
def past : Action → String
  | start => "started"
  | stop => "stopped"
  | restart => "restarted"

def ofName? (name : String) : Option Action :=
  [start, stop, restart].find? (·.name = name)

theorem ofName?_name (a : Action) : ofName? a.name = some a := by
  cases a <;> decide

end Action

def perform (c : Controller) : Action → Task CommandResult
  | .start => c.start
  | .stop => c.stop
  | .restart => c.restart

/-- A failed program as a refusal of the given kind; running out of time is a kind of its own. -/
def refusalOf (result : CommandResult) (message : String) (kind : Refusal.Kind) : Option Refusal :=
  if result.exitOk then none
  else some ⟨if result.timedOut then .timeout else kind, message, [("output", .text result.output)]⟩

def refuseFailed (result : CommandResult) (message : String) (kind : Refusal.Kind) : Task Unit :=
  match refusalOf result message kind with
  | some refusal => Task.refuse refusal
  | none => pure ()

end Controller
end ConfigSteward
