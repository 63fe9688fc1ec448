import ConfigSteward.World.Files

/-! # Locks on files

A lock belongs to the place that a path stands for, so different spellings of one path share it.
Several locks are taken in the order of their places' written paths and given back in reverse.
-/
namespace ConfigSteward.Lock

/-- The places that paths stand for, in order. -/
def places : List Path → Task (List Place)
  | [] => return []
  | p :: ps => do
    let place ← Task.resolve p
    return place :: (← places ps)

/-- Each place once, in the order of the written paths. -/
def inOrder (ps : List Place) : List Place :=
  ps.eraseDups.mergeSort fun a b => a.path.text ≤ b.path.text

def acquireAll : List Place → Plan Unit
  | [] => return ()
  | p :: ps => do
    Plan.request (.acquire p)
    acquireAll ps

def releaseAll : List Place → Plan Unit
  | [] => return ()
  | p :: ps => do
    Plan.request (.release p)
    releaseAll ps

/-- Do a task while holding the locks of some paths. -/
def hold {α : Type} (paths : List Path) (task : Task α) : Task α := do
  let locks := inOrder (← places paths)
  acquireAll locks
  task.andThen (releaseAll locks.reverse)

/-- Whether two paths share a lock. -/
def same (a b : Path) : Task Bool := do
  return (← Task.resolve a) = (← Task.resolve b)

end ConfigSteward.Lock
