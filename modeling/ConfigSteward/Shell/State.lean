import ConfigSteward.Shell.Lexeme
import ConfigSteward.Shell.Machine
import ConfigSteward.Shell.Writing

/-! # The state of a run

A run collects output and counts the time that passes while programs sleep. Standard output and
standard error are two names for one stream unless they are redirected, so the order of writes is
kept.
-/
namespace ConfigSteward.Shell

/-- Where a stream leads. -/
inductive Sink where
  | merged
  /-- Into the text that a command stands for, or into the next program of a pipe. -/
  | captured
  /-- At the end of a file. -/
  | file (place : Place)
  | nowhere
  deriving DecidableEq, Repr

structure Streams where
  out : Sink := .merged
  err : Sink := .merged
  deriving DecidableEq, Repr

/-- What does not change while a script runs. -/
structure Setting where
  /-- The name of the shell in its messages. -/
  name : String
  /-- Whether the shell's own `echo` leaves escapes alone. -/
  plainEcho : Bool := false
  /-- The process that has started the shell. -/
  parent : String := serviceProcess

structure State where
  tree : Tree
  here : Place
  args : List String := []
  functions : List (String × Command) := []
  bindings : List (String × String) := []
  status : Nat := 0
  /-- Chunks of output, last first. -/
  output : List Bytes := []
  captured : List Bytes := []
  input : Bytes := []
  streams : Streams := {}
  /-- Billionths of a second. -/
  elapsed : Nat := 0
  /-- Actions for signals; zero stands for the end of the shell. -/
  traps : List (Nat × String) := []
  /-- Whether a failed command ends the shell. -/
  strict : Bool := false

/-- How a command leaves the script. -/
inductive Flow where
  | next
  | exit
  /-- Out of a function. -/
  | back
  | killed (signal : Nat)
  | endless
  /-- Out of loops, as many as are counted. -/
  | leave (loops : Nat)
  /-- On to the next round of a loop. -/
  | again (loops : Nat)
  deriving DecidableEq, Repr

/-- The tree after bytes were written at the end of a file. -/
def extendFile (t : Tree) (place : Place) (bytes : Bytes) : Tree :=
  match t.get? place with
  | some (.file old mode _) => t.put place (.file (old ++ bytes) mode .lately)
  | _ => t

namespace State

def write (s : State) (sink : Sink) (bytes : Bytes) : State :=
  match sink with
  | .merged => { s with output := bytes :: s.output }
  | .captured => { s with captured := bytes :: s.captured }
  | .file place => { s with tree := extendFile s.tree place bytes }
  | .nowhere => s

def out (s : State) (bytes : Bytes) : State := s.write s.streams.out bytes

def err (s : State) (text : String) : State := s.write s.streams.err (Text.encodeString text)

def withStatus (s : State) (status : Nat) : State := { s with status := status }

def get (s : State) (name : String) : String :=
  ((s.bindings.find? (·.1 = name)).map (·.2)).getD ""

def set (s : State) (name value : String) : State :=
  { s with bindings := (name, value) :: s.bindings.filter (·.1 ≠ name) }

/-- A state after a shell of its own has run from it: only its output, the files, the time and the
status are left of that. -/
def after (s inner : State) : State :=
  { s with
    output := inner.output, captured := inner.captured, elapsed := inner.elapsed
    tree := inner.tree, status := inner.status }

/-- The place that a path leads to, from the folder of the run if that is still there. -/
def walk (s : State) (follow : Bool) (path : String) : Except Cause Place :=
  let p := Path.ofText path
  if s.tree.isFolder (p.start s.here) then s.tree.walk follow s.here p else .error .noEntry

/-- The node that a path leads to. -/
def node? (s : State) (path : String) : Option Node :=
  match s.walk true path with
  | .ok place => s.tree.get? place
  | .error _ => none

/-- The content of the file that a path leads to. -/
def content (s : State) (path : String) : Except Cause Bytes :=
  match s.walk true path with
  | .error cause => .error cause
  | .ok place =>
    match s.tree.get? place with
    | some (.file bytes _ _) => .ok bytes
    | some _ => .error .isDirectory
    | none => .error .noEntry

end State

/-- The text by which a script names its own process. -/
def ownProcess : String := "4242"

abbrev Effect := State × Flow

def finish (s : State) (status : Nat) : Effect := (s.withStatus status, .next)

end ConfigSteward.Shell
