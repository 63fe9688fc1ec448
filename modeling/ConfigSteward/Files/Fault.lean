import ConfigSteward.Text.Quoted

/-! # Faults of file-system calls

A call fails for one of a few causes. The message shows the cause's number and words and the path,
or both paths of a move, as they were passed to the call, if it was given one.
-/
namespace ConfigSteward

inductive Cause where
  | noEntry
  | accessDenied
  | alreadyThere
  | notDirectory
  | isDirectory
  | nameTooLong
  | tooManyLinks
  | badFormat
  | fileTooLarge
  deriving DecidableEq, Repr

namespace Cause

def number : Cause → Nat
  | noEntry => 2
  | accessDenied => 13
  | alreadyThere => 17
  | notDirectory => 20
  | isDirectory => 21
  | nameTooLong => 36
  | tooManyLinks => 40
  | badFormat => 8
  | fileTooLarge => 27

def words : Cause → String
  | noEntry => "No such file or directory"
  | accessDenied => "Permission denied"
  | alreadyThere => "File exists"
  | notDirectory => "Not a directory"
  | isDirectory => "Is a directory"
  | nameTooLong => "File name too long"
  | tooManyLinks => "Too many levels of symbolic links"
  | badFormat => "Exec format error"
  | fileTooLarge => "File too large"

/-- The causes that say that a path leads nowhere. -/
def leadsNowhere : Cause → Bool
  | noEntry | notDirectory | tooManyLinks => true
  | _ => false

/-- Whether the failed call was given a path. A file that is open already is written without one. -/
def namesPath : Cause → Bool
  | fileTooLarge => false
  | _ => true

end Cause

/-- A failed call: its cause and the texts of the paths that it was given. -/
structure Fault where
  cause : Cause
  path : String
  target : Option String := none
  deriving DecidableEq, Repr

def Fault.message (f : Fault) : String :=
  let shown := Text.quoted f.path
  let paths := match f.target with
    | some t => s!"{shown} -> {Text.quoted t}"
    | none => shown
  let told := s!"[Errno {f.cause.number}] {f.cause.words}"
  if f.cause.namesPath then told ++ ": " ++ paths else told

end ConfigSteward
