import ConfigSteward.Files.Fault
import ConfigSteward.Files.Tree
import ConfigSteward.Json.Value
import ConfigSteward.Text.Raw
import ConfigSteward.Time.Stamp

/-! # Refusals and failures

A refusal is an answer that the service gives on purpose: it has a kind, which fixes the status of
the answer, a message and further fields for its body. A failure is a refusal or one of the few
things that no operation turns into one.
-/
namespace ConfigSteward

namespace Refusal

inductive Kind where
  | configuration
  | fileAccess
  | backup
  | notFound
  | invalidName
  | alreadyExists
  | validation
  | control
  | reload
  | timeout
  | badRequest
  deriving DecidableEq, Repr

/-- The kind of which this one is a special case. -/
def Kind.parent? : Kind → Option Kind
  | configuration => none
  | backup => some fileAccess
  | reload => some control
  | _ => some configuration

/-- The kind and every kind of which it is a special case, nearest first. -/
def Kind.lineage : Kind → List Kind
  | configuration => [configuration]
  | backup => [backup, fileAccess, configuration]
  | reload => [reload, control, configuration]
  | k => [k, configuration]

def Kind.status : Kind → Nat
  | configuration | fileAccess | backup | control | reload => 500
  | notFound => 404
  | invalidName | validation | badRequest => 400
  | alreadyExists => 409
  | timeout => 504

theorem Kind.lineage_eq (k : Kind) :
    k.lineage = k :: (k.parent?.elim [] Kind.lineage) := by
  cases k <;> rfl

end Refusal

structure Refusal where
  kind : Refusal.Kind
  message : Option String
  extra : List (String × Json) := []
  deriving Repr

namespace Refusal

def status (r : Refusal) : Nat := r.kind.status

/-- The message under `error`, then the further fields, of which one named `error` wins. -/
def body (r : Refusal) : List (String × Json) :=
  r.extra.foldl (fun fields f => Json.setField fields f.1 f.2) [("error", Json.ofText? r.message)]

def notFound (message : String) : Refusal := ⟨.notFound, message, []⟩

def invalidName (message : String) : Refusal := ⟨.invalidName, message, []⟩

def fileAccess (message : String) : Refusal := ⟨.fileAccess, message, []⟩

def backup (message : String) : Refusal := ⟨.backup, message, []⟩

end Refusal

inductive Failure where
  | refused (r : Refusal)
  | fault (f : Fault)
  /-- A link leads back to itself; the place is where it was met. -/
  | linkLoop (place : Place)
  /-- A backup's name has the form of a stamp that names no second. -/
  | badStamp (f : Stamp.Fault)
  /-- A program could not be run at all. -/
  | programRaised (text : String)
  /-- A program's argument holds the character NUL. -/
  | nulInArgument
  /-- A scan of the configuration was asked for by arguments that name none. -/
  | noFileNamed
  /-- A content holds half of a surrogate pair. -/
  | unencodable (text : BrokenText)
  deriving Repr

def Failure.message : Failure → String
  | refused r => r.message.getD "None"
  | fault f => f.message
  | linkLoop place => "Symlink loop from " ++ Text.quoted ("/" ++ "/".intercalate place)
  | badStamp f => f.message
  | programRaised text => text
  | nulInArgument => "embedded null byte"
  | noFileNamed => "'-c' is not in list"
  | unencodable text => text.fault

end ConfigSteward
