import ConfigSteward.World.Plan

/-! # File operations made of several requests

`leads` asks what a path leads to and takes the faults that say "nowhere" as an answer.
`ensureFolder` makes a folder and those above it, `replace` puts new content in a file's place in
one step: the content goes to a hidden file beside it, which then takes the file's place.
-/
namespace ConfigSteward

/-- A plan that may end in a fault. -/
abbrev FileTask := ExceptT Fault Plan

namespace FileTask

def read (p : Path) : FileTask Bytes := ExceptT.mk (Plan.request (.read p))

def look (p : Path) : FileTask Status := ExceptT.mk (Plan.request (.look p))

def list (p : Path) : FileTask (List String) := ExceptT.mk (Plan.request (.list p))

def create (p : Path) : FileTask Unit := ExceptT.mk (Plan.request (.create p))

def createTemp (folder : Path) (base : String) : FileTask Path :=
  ExceptT.mk (Plan.request (.createTemp folder base))

def fill (p : Path) (bytes : Bytes) : FileTask Unit := ExceptT.mk (Plan.request (.fill p bytes))

def setMode (p : Path) (mode : Nat) : FileTask Unit := ExceptT.mk (Plan.request (.setMode p mode))

def move (source target : Path) : FileTask Unit :=
  ExceptT.mk (Plan.request (.move source target))

def unlink (p : Path) : FileTask Unit := ExceptT.mk (Plan.request (.unlink p))

def makeFolder (p : Path) : FileTask Unit := ExceptT.mk (Plan.request (.makeFolder p))

/-- The outcome of a task as a value. -/
def attempt {α : Type} (task : FileTask α) : FileTask (Except Fault α) := ExceptT.lift task.run

/-- Whether a path leads to something that passes a test. -/
def leads (p : Path) (test : Status → Bool) : FileTask Bool := do
  match ← attempt (look p) with
  | .ok status => return test status
  | .error f => if f.cause.leadsNowhere then return false else throw f

def exists? (p : Path) : FileTask Bool := leads p fun _ => true

def isFile (p : Path) : FileTask Bool := leads p fun status => status.kind = .file

def isFolder (p : Path) : FileTask Bool := leads p fun status => status.kind = .folder

/-- A folder that is there already is as good as a new one. -/
def orFolder (p : Path) (f : Fault) : FileTask Unit := do
  if ← isFolder p then return () else throw f

/-- Make one folder, unless it is there. -/
def makeOneFolder (p : Path) : FileTask Unit := do
  match ← attempt (makeFolder p) with
  | .ok () => return ()
  | .error f => if f.cause = .noEntry then throw f else orFolder p f

/-- Make a folder and those above it, unless they are there. -/
def ensureFolder (p : Path) : FileTask Unit := do
  match ← attempt (makeFolder p) with
  | .ok () => return ()
  | .error f =>
    if f.cause = .noEntry then
      if _h : p.isBare = true then throw f
      else
        ensureFolder p.parent
        makeOneFolder p
    else orFolder p f
termination_by p.parts.length
decreasing_by exact Path.length_parts_parent_lt (by simpa using _h)

/-- The mode of a file that replaces another one: its low nine bits, or those of a plain file. -/
def modeFor (p : Path) : FileTask Nat := do
  if ← exists? p then return (← look p).mode % 0o1000 else return 0o644

/-- Write the content beside the target, give it its mode and move it into place. -/
def fillAndMove (temp target : Path) (bytes : Bytes) : FileTask Unit := do
  fill temp bytes
  setMode temp (← modeFor target)
  move temp target

/-- Take a temporary file away if it is still there. -/
def discard (temp : Path) : FileTask Unit := do
  match ← attempt (look temp) with
  | .ok _ => unlink temp
  | .error _ => return ()

/-- Replace the content of the file at a path in one step, making missing folders above it. -/
def replace (p : Path) (bytes : Bytes) : FileTask Unit := do
  ensureFolder p.parent
  let temp ← createTemp p.parent p.name
  match ← attempt (fillAndMove temp p bytes) with
  | .ok () => return ()
  | .error f =>
    discard temp
    throw f

/-- Make a new file with content; what is there stays. -/
def createWith (p : Path) (bytes : Bytes) : FileTask Unit := do
  create p
  fill p bytes

end FileTask

namespace Task

variable {α : Type}

/-- A file task, whose fault ends the plan as it is. -/
def ofFile (task : FileTask α) : Task α := ExceptT.mk do
  match ← task.run with
  | .ok a => return .ok a
  | .error f => return .error (.fault f)

/-- A file task, whose fault becomes a refusal. -/
def ofFileOr (refusal : Fault → Refusal) (task : FileTask α) : Task α := ExceptT.mk do
  match ← task.run with
  | .ok a => return .ok a
  | .error f => return .error (.refused (refusal f))

/-- The outcome of a file task as a value. -/
def attemptFile (task : FileTask α) : Task (Except Fault α) := ExceptT.lift task.run

/-- The outcome of a task as a value. -/
def attempt (task : Task α) : Task (Except Failure α) := ExceptT.lift task.run

/-- The place that a path stands for. -/
def resolve (p : Path) : Task Place := do
  match ← request (.resolve p) with
  | .ok place => return place
  | .error place => throw (.linkLoop place)

end Task
end ConfigSteward
