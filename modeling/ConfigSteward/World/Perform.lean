import ConfigSteward.Files.Walk
import ConfigSteward.World.Plan

/-! # The surroundings and how they answer

A world holds the tree of files, the folder from which relative paths start, the clock, the readings
noted so far and the programs. What a program does may hang on every program run before it, on its
arguments and on the tree, and it may change the tree. `Plan.run` carries a plan out.
-/
namespace ConfigSteward

/-- Programs: from the argument lists run before (latest first), the arguments and the tree to the
result and the tree afterwards. -/
abbrev Programs := List (List String) → List String → Tree → Except Failure CommandResult × Tree

structure World where
  tree : Tree
  here : Place
  /-- Millionths of a second since the first instant of the year 1. -/
  clock : Nat
  noted : List (String × Civil)
  programs : Programs
  /-- The argument lists run so far, latest first. -/
  ran : List (List String)
  /-- Where the search for the name of a temporary file starts, for its folder and the name that it is
  made for. It stands for chance. -/
  draw : Path → String → Nat := fun _ _ => 0

namespace World

/-- The mode of a file that is made without asking for another one. -/
def plainMode : Nat := 0o644

/-- The mode of a temporary file. -/
def privateMode : Nat := 0o600

/-- What the system tells of a node. All folders may be searched and changed here. -/
def statusOf : Node → Option Status
  | .file bytes mode changed => some ⟨.file, mode, bytes.length, changed⟩
  | .folder => some ⟨.folder, 0o755, 0, .lately⟩
  | .link _ => none

def fault {α : Type} (cause : Cause) (p : Path) : Except Fault α := .error ⟨cause, p.text, none⟩

/-- Act on the node that a path leads to, links followed. -/
def onNode {α : Type} (w : World) (p : Path) (f : Place → Node → Except Fault α) : Except Fault α :=
  match w.tree.walk true w.here p with
  | .error cause => fault cause p
  | .ok place =>
    match w.tree.get? place with
    | some node => f place node
    | none => fault .noEntry p

def read (w : World) (p : Path) : Except Fault Bytes :=
  w.onNode p fun _ node =>
    match node with
    | .file bytes _ _ => .ok bytes
    | _ => fault .isDirectory p

def look (w : World) (p : Path) : Except Fault Status :=
  w.onNode p fun _ node =>
    match statusOf node with
    | some status => .ok status
    | none => fault .tooManyLinks p

def list (w : World) (p : Path) : Except Fault (List String) :=
  w.onNode p fun place node =>
    match node with
    | .folder => .ok (w.tree.children place)
    | _ => fault .notDirectory p

/-- The place for a new entry, if there is none yet. -/
def vacancy (w : World) (p : Path) : Except Fault Place :=
  match w.tree.walk false w.here p with
  | .error cause => fault cause p
  | .ok place => if (w.tree.get? place).isSome then fault .alreadyThere p else .ok place

/-- Put a new entry where a path names none. -/
def add (w : World) (p : Path) (node : Node) : Except Fault Unit × World :=
  match w.vacancy p with
  | .error f => (.error f, w)
  | .ok place => (.ok (), { w with tree := w.tree.put place node })

/-- The folder in which a temporary file is made, its `..` parts dropped with the parts before. -/
def tempFolder (w : World) (folder : Path) : Path :=
  match folder.lead with
  | .none => (Place.path (Path.collapse [] (w.here ++ folder.parts)))
  | lead => ⟨lead, Path.collapse [] folder.parts⟩

/-- The name of a temporary file: a dot, the base, eight characters and the ending `.tmp`. -/
def tempName (base : String) (n : Nat) : String :=
  let digits := Nat.toDigits 10 n
  "." ++ base ++ "." ++ String.ofList (List.replicate (8 - digits.length) '0' ++ digits) ++ ".tmp"

/-- Whether a temporary name is out of the question: it names an entry, or a link points to a file of
that name. Of a fresh name, drawn from so many, no link knows yet. -/
def tempTaken (w : World) (p : Path) : Bool :=
  w.tree.pointsTo p.name ||
    match w.vacancy p with
    | .error ⟨.alreadyThere, _, _⟩ => true
    | _ => false

/-- The first temporary name from `n` on that is not taken. -/
def freeTemp (w : World) (folder : Path) (base : String) (n : Nat) : Nat → Path
  | 0 => folder.child (tempName base n)
  | tries + 1 =>
    let p := folder.child (tempName base n)
    match w.tempTaken p with
    | true => freeTemp w folder base (n + 1) tries
    | false => p

/-- How many names are tried: every entry takes at most its own name and one that it points to. -/
def tempTries (w : World) : Nat := 2 * w.tree.entries.length

def createTemp (w : World) (folder : Path) (base : String) : Except Fault Path × World :=
  let p := w.freeTemp (w.tempFolder folder) base (w.draw (w.tempFolder folder) base) w.tempTries
  match w.add p (.file [] privateMode .lately) with
  | (.ok (), w) => (.ok p, w)
  | (.error f, w) => (.error f, w)

/-- Change the file that a path leads to. -/
def alter (w : World) (p : Path) (f : Bytes → Nat → Changed → Node) : Except Fault Unit × World :=
  match w.tree.walk true w.here p with
  | .error cause => (fault cause p, w)
  | .ok place =>
    match w.tree.get? place with
    | some (.file bytes mode changed) =>
      (.ok (), { w with tree := w.tree.put place (f bytes mode changed) })
    | some _ => (fault .isDirectory p, w)
    | none => (fault .noEntry p, w)

/-- Move an entry that is no folder. -/
def move (w : World) (source target : Path) : Except Fault Unit × World :=
  let fail (cause : Cause) : Except Fault Unit × World :=
    (.error ⟨cause, source.text, some target.text⟩, w)
  match w.tree.walk false w.here source, w.tree.walk false w.here target with
  | .error cause, _ => fail cause
  | _, .error cause => fail cause
  | .ok origin, .ok goal =>
    match w.tree.get? origin with
    | none => fail .noEntry
    | some .folder => fail .isDirectory
    | some node =>
      if w.tree.get? goal = some .folder then fail .isDirectory
      else if origin = goal then (.ok (), w)
      else (.ok (), { w with tree := (w.tree.remove origin).put goal node })

def unlink (w : World) (p : Path) : Except Fault Unit × World :=
  match w.tree.walk false w.here p with
  | .error cause => (fault cause p, w)
  | .ok place =>
    match w.tree.get? place with
    | none => (fault .noEntry p, w)
    | some .folder => (fault .isDirectory p, w)
    | some _ => (.ok (), { w with tree := w.tree.remove place })

def perform (w : World) : (r : Request) → r.Reply × World
  | .read p => (w.read p, w)
  | .look p => (w.look p, w)
  | .list p => (w.list p, w)
  | .create p => w.add p (.file [] plainMode .lately)
  | .createTemp folder base => w.createTemp folder base
  | .fill p bytes => w.alter p fun _ mode _ => .file bytes mode .lately
  | .setMode p mode => w.alter p fun bytes _ changed => .file bytes mode changed
  | .move source target => w.move source target
  | .unlink p => w.unlink p
  | .makeFolder p => w.add p .folder
  | .resolve p => (w.tree.resolve w.here p, w)
  | .run args =>
    let (result, tree) := w.programs w.ran args w.tree
    (result, { w with tree := tree, ran := args :: w.ran })
  | .clock => (Civil.ofSeconds (w.clock / 1000000), w)
  | .latest artifact => ((w.noted.find? (·.1 = artifact)).map (·.2), w)
  | .note artifact reading =>
    ((), { w with noted := (artifact, reading) :: w.noted.filter (·.1 ≠ artifact) })
  | .acquire _ => ((), w)
  | .release _ => ((), w)

end World

namespace Plan

variable {α β : Type}

/-- Carry a plan out from start to end. -/
def run : Plan α → World → α × World
  | done a, w => (a, w)
  | ask r next, w =>
    let (reply, w) := w.perform r
    (next reply).run w

@[simp] theorem run_done (a : α) (w : World) : (done a).run w = (a, w) := rfl

@[simp] theorem run_ask (r : Request) (next : r.Reply → Plan α) (w : World) :
    (ask r next).run w = (next (w.perform r).1).run (w.perform r).2 := rfl

@[simp] theorem run_bind (p : Plan α) (f : α → Plan β) (w : World) :
    (p >>= f).run w = (f (p.run w).1).run (p.run w).2 := by
  induction p generalizing w with
  | done a => rfl
  | ask r next ih => exact ih _ _

end Plan
end ConfigSteward
