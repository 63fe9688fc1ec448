import ConfigSteward.Refusal

/-! # Outcomes of a save

An outcome records every step that a save took. What went wrong is data in it; `refusal?` turns it
into the refusal that tells of it, with the backup's name and the output of the program at fault.
-/
namespace ConfigSteward

namespace Outcome

inductive Error where
  | backupFailed
  | writeFailed
  | validationFailed
  | reloadFailed
  | timeout
  deriving DecidableEq, Repr

namespace Error

def name : Error → String
  | backupFailed => "BackupFailed"
  | writeFailed => "WriteFailed"
  | validationFailed => "ValidationFailed"
  | reloadFailed => "ReloadFailed"
  | timeout => "Timeout"

def ofName? (name : String) : Option Error :=
  [backupFailed, writeFailed, validationFailed, reloadFailed, timeout].find? (·.name = name)

@[simp] theorem ofName?_name (e : Error) : ofName? e.name = some e := by
  cases e <;> decide

end Error

end Outcome

structure Outcome where
  artifact : String
  backup : Option String := none
  backupCreated : Bool := false
  applied : Bool := false
  validated : Bool := false
  rolledBack : Bool := false
  reloadAttempted : Bool := false
  reloaded : Bool := false
  validationOutput : String := ""
  reloadOutput : String := ""
  error : Option Outcome.Error := none
  message : Option String := none
  deriving DecidableEq, Repr

namespace Outcome

def success (o : Outcome) : Bool := o.error.isNone

/-- The output and the backup's name as further fields of a refusal. -/
def details (o : Outcome) (output : String) : List (String × Json) :=
  [("output", .text output), ("backup", Json.ofText? o.backup)]

def refusal? (o : Outcome) : Option Refusal :=
  o.error.map fun
    | .validationFailed => ⟨.validation, o.message, o.details o.validationOutput⟩
    | .reloadFailed => ⟨.reload, o.message, o.details o.reloadOutput⟩
    | .timeout =>
      ⟨.timeout, o.message, o.details (if o.validated then o.reloadOutput else o.validationOutput)
        ++ [("rolledBack", .bool o.rolledBack)]⟩
    | .backupFailed => ⟨.backup, o.message, [("backup", .null)]⟩
    | .writeFailed => ⟨.fileAccess, o.message, [("backup", Json.ofText? o.backup)]⟩

end Outcome
end ConfigSteward
