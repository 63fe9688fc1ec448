import ConfigSteward.Files.Tree

/-! # The limit on the size of files

The system may set a process a limit beyond which it writes no file. It shows the limit in a file of
its own, which is where the service's limit is read and set here.
-/
namespace ConfigSteward

/-- The number by which the system knows the service. -/
def serviceProcess : String := "4241"

/-- Where the system shows the limits of the service. -/
def limitsPlace : Place := ["proc", serviceProcess, "limits"]

namespace SizeLimit

def label : List Char := "Max file size ".toList

/-- The line that shows a limit in bytes, `none` standing for no limit. -/
def line : Option Nat → List Char
  | some n => label ++ Nat.toDigits 10 n ++ " bytes\n".toList
  | none => label ++ "unlimited bytes\n".toList

/-- The limit that a line shows. -/
def ofLine? (cs : List Char) : Option Nat :=
  match (cs.drop label.length).takeWhile Char.isDigit with
  | [] => none
  | digits => some (Nat.ofDigitChars 10 digits 0)

/-- What the system's file holds. -/
def shown (limit : Option Nat) : Node :=
  .file (Text.encodeString (String.ofList (line limit))) 0o444 .lately

end SizeLimit

namespace Tree

/-- The limit on the size of the files that the service writes. -/
def sizeLimit? (t : Tree) : Option Nat :=
  match t.get? limitsPlace with
  | some (.file bytes _ _) => SizeLimit.ofLine? (Text.decodeLossyChars bytes)
  | _ => none

def limitSize (t : Tree) (limit : Option Nat) : Tree := t.put limitsPlace (SizeLimit.shown limit)

end Tree
end ConfigSteward
