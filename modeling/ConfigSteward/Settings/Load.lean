import ConfigSteward.Settings.Library
import ConfigSteward.World.Files

/-! # Loading settings

Settings come from a file and from the environment. A variable that is set to anything but the empty
text wins over the file, which is named by the caller or by a variable of its own. What a file means
and which values are taken is up to the library.
-/
namespace ConfigSteward

/-- Variables and their values. -/
abbrev Environment := List (String × String)

namespace Environment

/-- The value of a variable, unless it is empty. -/
def value? (e : Environment) (name : String) : Option String :=
  ((e.find? (·.1 = name)).map (·.2)).filter (· ≠ "")

end Environment

namespace Settings

/-- The variable that names the file of settings. -/
def fileVariable : String := "NGINX_ADMIN_SETTINGS"

/-- Why settings cannot be loaded. -/
inductive LoadFault (φ ρ : Type) where
  | fault (f : Fault)
  /-- The name of the file holds the character NUL. -/
  | nulInPath
  | notUnicode
  | document (f : φ)
  | notAMapping (file : String)
  /-- A key of the file is no text. -/
  | keyNotText
  | issues (is : List (Issue ρ))
  deriving Repr

variable {φ ρ : Type} (lib : Library φ ρ)

/-- One line for each fault of a field. -/
def Issue.line (tell : ρ → String) (i : Issue ρ) : String := s!"{i.key}: {tell i.reason}"

def LoadFault.message : LoadFault φ ρ → String
  | fault f => f.message
  | nulInPath => Failure.nulInArgument.message
  | notUnicode => "the file of settings is not UTF-8"
  | document f => lib.tellFault f
  | notAMapping file => s!"Settings file {file} must contain a mapping"
  | keyNotText => "keys must be strings"
  | issues is => String.intercalate "\n" (is.map (Issue.line lib.tellReason))

/-- A text whose line breaks are all single line feeds. -/
def unifyBreaks : List Char → List Char
  | [] => []
  | '\r' :: '\n' :: r => '\n' :: unifyBreaks r
  | '\r' :: r => '\n' :: unifyBreaks r
  | c :: r => c :: unifyBreaks r

/-- The value of a document given as bytes. -/
def documentOf (bytes : Bytes) : Except (LoadFault φ ρ) Value :=
  match Text.decodeChars? bytes with
  | none => .error .notUnicode
  | some cs =>
    match lib.parse (String.ofList (unifyBreaks cs)) with
    | .ok v => .ok v
    | .error f => .error (.document f)

/-- The entries of a document that is to be a mapping. An empty document has none. -/
def entriesOf (file : String) : Value → Except (LoadFault φ ρ) (List (Value × Value))
  | .null => .ok []
  | .mapping entries => .ok entries
  | _ => .error (.notAMapping file)

/-- Entries as values under keys; `none` if a key is no text. -/
def valuesOfEntries? : List (Value × Value) → Option Values
  | [] => some []
  | (.text key, v) :: es => (valuesOfEntries? es).map ((key, v) :: ·)
  | _ :: _ => none

/-- Whether a text names a folder by its last character. -/
def namesFolder (file : String) : Bool := file.toList.getLast? = some '/'

/-- The content of the file of settings; faults tell the path as it was given. -/
def readFile (file : String) : Plan (Except (LoadFault φ ρ) Bytes) :=
  if file.toList.contains '\x00' then return .error .nulInPath
  else do
    match ← (FileTask.read (Path.ofText file)).run with
    | .ok bytes =>
      return if namesFolder file then .error (.fault ⟨.notDirectory, file, none⟩) else .ok bytes
    | .error f => return .error (.fault { f with path := file })

/-- Give the value that the variable of a field sets. -/
def giveVariable (e : Environment) (values : Values) (f : Field) : Values :=
  match e.value? f.variableName with
  | some text => give values f.key (.text text)
  | none => values

/-- Give the values that variables set. -/
def giveVariables (e : Environment) (values : Values) : Values :=
  Field.all.foldl (giveVariable e) values

/-- The settings that entries of a file and the environment make together. -/
def ofSources (e : Environment) (entries : List (Value × Value)) :
    Except (LoadFault φ ρ) Settings :=
  match valuesOfEntries? entries with
  | none => .error .keyNotText
  | some values =>
    match lib.validate (giveVariables e values) with
    | .ok s => .ok s
    | .error issues => .error (.issues issues)

/-- The settings that the content of a file and the environment make together. -/
def ofContent (e : Environment) (file : String) (content : Except (LoadFault φ ρ) Bytes) :
    Except (LoadFault φ ρ) Settings := do
  ofSources lib e (← entriesOf file (← documentOf lib (← content)))

/-- The file of settings: the given one, else the one that the environment names. -/
def chosenFile (e : Environment) (file : Option String) : Option String :=
  match file.filter (· ≠ "") with
  | some f => some f
  | none => e.value? fileVariable

def load (e : Environment) (file : Option String) : Plan (Except (LoadFault φ ρ) Settings) :=
  match chosenFile e file with
  | none => return ofSources lib e []
  | some f => return ofContent lib e f (← readFile f)

end Settings
end ConfigSteward
