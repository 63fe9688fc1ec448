import ConfigSteward.World.Perform

/-! # Scripted programs

For rehearsals the programs can be scripted: each action has responses that are given in turn, the
last one again and again. A response may edit the tree before it answers, fail to run, or scan the
configuration for a word as a check would.
-/
namespace ConfigSteward

/-- A change made to the tree from outside: what is at a path after it. -/
structure Edit where
  path : Path
  /-- Without a node the edit takes away what is there, with everything below. -/
  node : Option Node
  deriving DecidableEq, Repr

namespace Edit

/-- Make the folders that lead to a place, as far as they are missing. -/
def makeFolders (t : Tree) (place : Place) : List String → Tree
  | [] => t
  | name :: rest =>
    let next := place ++ [name]
    let t := if (t.get? next).isSome then t else t.put next .folder
    makeFolders t next rest

/-- The place of an entry whose folder is reached through links. -/
def placeOf (t : Tree) (here : Place) (p : Path) : Place :=
  match t.resolve here p.parent with
  | .ok folder => if p.isBare then folder else folder ++ [p.name]
  | .error folder => folder ++ [p.name]

def apply (here : Place) (t : Tree) (e : Edit) : Tree :=
  let place := placeOf t here e.path
  match e.node with
  | none => t.removeAll place
  | some .folder =>
    let t := makeFolders t [] place.dropLast
    if t.isFolder place then t else t.put place .folder
  | some node => ((makeFolders t [] place.dropLast).removeAll place).put place node

end Edit

/-- How a scripted program ends. -/
inductive Ending where
  | gives (result : CommandResult)
  | raises (text : String)
  | scans (word : String)
  deriving DecidableEq, Repr

structure Response where
  edits : List Edit := []
  ending : Ending
  deriving DecidableEq, Repr

/-- The responses of one action, counted from the run before which `earlier` runs of the action had
been made. -/
structure Part where
  action : String
  earlier : Nat := 0
  responses : List Response
  deriving DecidableEq, Repr

structure Script where
  parts : List Part
  /-- The folder of the files that a scan reads after the one it is given. -/
  servers : Path
  here : Place

namespace Script

/-- The word that follows `-s`. -/
def signal? : List String → Option String
  | "-s" :: word :: _ => some word
  | _ :: rest => signal? rest
  | [] => none

/-- The action that arguments ask for. -/
def actionOf (args : List String) : String :=
  if args.head? = some "pgrep" then "status"
  else if args.contains "-t" then "test"
  else (signal? args).getD "start"

/-- The file that follows `-c`. -/
def file? : List String → Option String
  | "-c" :: file :: _ => some file
  | _ :: rest => file? rest
  | [] => none

/-- The content of the file that a path leads to. -/
def contentAt? (t : Tree) (here : Place) (p : Path) : Option Bytes :=
  match t.walk true here p with
  | .ok place =>
    match t.get? place with
    | some (.file bytes _ _) => some bytes
    | _ => none
  | .error _ => none

def holds (word : Bytes) : Bytes → Bool
  | [] => word.isEmpty
  | b :: r => word.isPrefixOf (b :: r) || holds word r

/-- The files that a scan reads: the given one, then the server files by name. -/
def scanned (s : Script) (t : Tree) (file : String) : List Path :=
  let servers := match t.walk true s.here s.servers with
    | .ok place =>
      (t.children place).filter fun (name : String) => ".conf".toList.isSuffixOf name.toList
    | .error _ => []
  Path.ofText file :: (servers.mergeSort fun a b => a ≤ b).map s.servers.child

/-- The verdict of a scan for a word. -/
def scan (s : Script) (t : Tree) (file word : String) : CommandResult :=
  let isBad := fun p =>
    match contentAt? t s.here p with
    | some bytes => holds (Text.encodeString word) bytes
    | none => false
  match (s.scanned t file).find? isBad with
  | some p =>
    { exitOk := false
      output := "nginx: [emerg] \"" ++ word ++ "\" in " ++ p.text ++ "\n"
      exitCode := some 1 }
  | none => { exitOk := true, output := "nginx: test is successful\n", exitCode := some 0 }

/-- The response to a run of an action after `earlier` runs of it. -/
def responseTo (s : Script) (action : String) (earlier : Nat) : Response :=
  let plain : Response := { ending := .gives { exitOk := true, exitCode := some 0 } }
  match s.parts.find? (·.action = action) with
  | some part =>
    (part.responses[min (earlier - part.earlier) (part.responses.length - 1)]?).getD plain
  | none => plain

/-- How often an action was run. -/
def count (action : String) (ran : List (List String)) : Nat :=
  (ran.filter fun args => actionOf args = action).length

def programs (s : Script) : Programs := fun ran args t =>
  let action := actionOf args
  let response := s.responseTo action (count action ran)
  let t := response.edits.foldl (Edit.apply s.here) t
  match response.ending with
  | .gives result => (.ok result, t)
  | .raises text => (.error (.programRaised text), t)
  | .scans word =>
    match file? args with
    | some file => (.ok (s.scan t file word), t)
    | none => (.error .noFileNamed, t)

/-- Replace the responses of one action from now on. -/
def respond (s : Script) (ran : List (List String)) (action : String) (responses : List Response) :
    Script :=
  { s with parts := ⟨action, count action ran, responses⟩ :: s.parts.filter (·.action ≠ action) }

end Script
end ConfigSteward
