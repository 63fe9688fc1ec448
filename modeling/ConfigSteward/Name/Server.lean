import ConfigSteward.Name.Safe
import ConfigSteward.Refusal

/-! # Names of server files

A server file is named by a safe name that ends in `.conf`; the ending may be left out when the name
is given.
-/
namespace ConfigSteward.Name

def serverSuffix : String := ".conf"

/-- A safe text that goes on before its ending `.conf`, up to one line break at its end. -/
def isServerFile (name : String) : Bool :=
  let body := dropFinalBreak name.toList
  body.all isSafeChar && serverSuffix.toList.isSuffixOf body && body.length > 5

/-- A given name with the ending that server files have. -/
def withServerSuffix (name : String) : String :=
  if endsIn serverSuffix name then name else name ++ serverSuffix

/-- The file name that a given name stands for. -/
def normalizeServer (name : Option String) : Except Refusal String :=
  match name with
  | none => .error (.invalidName "name is required")
  | some name =>
    if name = "" then .error (.invalidName "name is required")
    else if name = "." || name = ".." then .error (.invalidName "invalid file name")
    else
      let file := withServerSuffix name
      if isSafe file && isServerFile file then .ok file
      else .error (.invalidName "invalid file name")

theorem withServerSuffix_of_endsIn {name : String} (h : endsIn serverSuffix name = true) :
    withServerSuffix name = name := by
  simp [withServerSuffix, h]

end ConfigSteward.Name
