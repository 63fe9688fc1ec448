import ConfigSteward.Files.SizeLimit
import ConfigSteward.World.Perform

/-! # Plans under the limit on the size of files

A file that is filled beyond the limit keeps what fits of its content, and the call fails.
`Plan.runBounded` carries a plan out under the limit that the system sets at the time of each request.
-/
namespace ConfigSteward

/-- The fault of a write beyond the limit. -/
def Fault.tooLarge (p : Path) : Fault := ⟨.fileTooLarge, p.text, none⟩

namespace World

/-- Fill a file with as much of a content as a limit lets in. -/
def fillUpTo (w : World) (limit : Nat) (p : Path) (bytes : Bytes) : Except Fault Unit × World :=
  match w.perform (.fill p (bytes.take limit)) with
  | (.ok (), v) => (if limit < bytes.length then .error (.tooLarge p) else .ok (), v)
  | (.error f, v) => (.error f, v)

def performBounded (w : World) : (r : Request) → r.Reply × World
  | .fill p bytes =>
    match w.tree.sizeLimit? with
    | some limit => w.fillUpTo limit p bytes
    | none => w.perform (.fill p bytes)
  | r => w.perform r

end World

/-- Carry a plan out from start to end, its files bounded in size. -/
def Plan.runBounded {α : Type} : Plan α → World → α × World
  | done a, w => (a, w)
  | ask r next, w =>
    let (reply, w) := w.performBounded r
    (next reply).runBounded w

end ConfigSteward
