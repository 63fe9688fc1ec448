import ConfigSteward.Name.Safe
import ConfigSteward.Refusal

/-! # Names of backups

A backup's name is the name of the artifact, a point, a stamp, for all but the first backup of a
second an underscore and a counter of two digits, and the ending `.backup`. `parse?` takes a name
apart; it takes digits of any script and looks past one line break at the end.
-/
namespace ConfigSteward.Name

def backupSuffix : String := ".backup"

/-- The parts of a backup's name. -/
structure BackupParts where
  artifact : List Char
  stamp : List Char
  counter : Option (List Char)
  deriving DecidableEq, Repr

/-- Eight digits, an underscore and six digits. -/
def isStamp (cs : List Char) : Bool :=
  cs.length = 15 && (cs.take 8).all Text.isDigit && cs[8]? = some '_' &&
    (cs.drop 9).all Text.isDigit

/-- An underscore and two digits. -/
def isCounter (cs : List Char) : Bool :=
  cs.length = 3 && cs.head? = some '_' && cs.tail.all Text.isDigit

/-- An artifact's name within a backup's name: not empty, on one line. -/
def isArtifact (cs : List Char) : Bool := !cs.isEmpty && !cs.contains '\n'

/-- Take apart what stands before the ending, where `counter` is already taken off. -/
def splitStamp (body : List Char) (counter : Option (List Char)) : Option BackupParts :=
  let artifact := body.take (body.length - 16)
  match body.drop (body.length - 16) with
  | '.' :: stamp =>
    if isStamp stamp && isArtifact artifact then some ⟨artifact, stamp, counter⟩ else none
  | _ => none

def splitBody (body : List Char) : Option BackupParts :=
  let tail := body.drop (body.length - 3)
  if isCounter tail then splitStamp (body.take (body.length - 3)) (some tail.tail)
  else splitStamp body none

def parse? (name : String) : Option BackupParts :=
  let cs := dropFinalBreak name.toList
  if backupSuffix.toList.isSuffixOf cs then splitBody (cs.take (cs.length - 7)) else none

/-- The artifact that a backup belongs to. -/
def artifactOf (name : String) : Except Refusal String :=
  match parse? name with
  | some parts => .ok (String.ofList parts.artifact)
  | none => .error (.invalidName ("Invalid backup name: " ++ name))

/-- The counter as it stands in a name: nothing for the first backup of a second. -/
def writeCounter (counter : Nat) : List Char :=
  if counter = 0 then [] else '_' :: Stamp.twoPlaces counter

/-- The name of the backup of an artifact at a reading. -/
def writeBackup (artifact : String) (reading : Civil) (counter : Nat) : String :=
  String.ofList (artifact.toList ++ '.' :: Stamp.writeChars reading ++ writeCounter counter
    ++ backupSuffix.toList)

end ConfigSteward.Name
