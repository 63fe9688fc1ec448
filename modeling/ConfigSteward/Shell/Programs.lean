import ConfigSteward.Number.Shortest
import ConfigSteward.Shell.Running
import ConfigSteward.World.Perform

/-! # Real programs

Programs of the machine and scripts below the site, run under a time limit. A program that cannot be
started counts as failed with the code 127; one that exceeds the limit is killed.
-/
namespace ConfigSteward.Shell

/-- A time limit in seconds and the way it is written. -/
structure Limit where
  seconds : Binary64
  text : String
  deriving DecidableEq, Repr

/-- Whether a run that takes `elapsed` billionths of a second exceeds a limit. -/
def Limit.isExceeded (l : Limit) (elapsed : Nat) : Bool :=
  match l.seconds with
  | .infinite negative => negative
  | .nan => false
  | x => !x.isPositive || x.floorScaled 1000000000 ≤ elapsed

/-- The result of a run, `name` being the program's name as it was given. -/
def resultOf (limit : Option Limit) (name : String) : Effect → CommandResult
  | (s, flow) =>
    let exceeded : Bool := match limit with
      | some l => flow = .endless || l.isExceeded s.elapsed
      | none => false
    if exceeded then
      let text := (limit.map Limit.text).getD ""
      ⟨false, name ++ " timed out after " ++ text ++ " seconds", some (-9), true⟩
    else
      let output := Text.decodeLossy s.output.reverse.flatten
      match flow with
      | .killed n => ⟨false, output, some (-n), false⟩
      | _ => ⟨s.status = 0, output, some s.status, false⟩

/-- Run a command under a time limit. -/
def runCommandLine (limit : Option Limit) (t : Tree) (here : Place) (args : List String) :
    Except Failure CommandResult × Tree :=
  if args.any fun a => a.toList.contains '\x00' then (.error .nulInArgument, t)
  else
    let name := args.headD ""
    match lookUp t here name with
    | .error cause => (.ok ⟨false, (Fault.mk cause name none).message, some 127, false⟩, t)
    | .ok e =>
      let effect := runExecutable { name } { tree := t, here } e name args.tail plenty
      (.ok (resultOf limit name effect), effect.1.tree)

/-- The programs of the machine. -/
def programs (limit : Option Limit) (here : Place) : Programs :=
  fun _ args t => runCommandLine limit t here args

end ConfigSteward.Shell
