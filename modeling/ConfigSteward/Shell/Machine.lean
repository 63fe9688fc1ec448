import ConfigSteward.Files.SizeLimit
import ConfigSteward.Files.Walk

/-! # The machine that runs programs

Where programs lie and which of them a name or a path leads to. A name without a slash is looked up
in the folders of programs one after the other; a path leads to one program or to none.
-/
namespace ConfigSteward.Shell

/-- The folders in which programs are looked up, in this order. -/
def programFolders : List Place :=
  [["usr", "local", "sbin"], ["usr", "local", "bin"], ["usr", "sbin"], ["usr", "bin"], ["sbin"],
    ["bin"]]

/-- The programs of the machine. -/
def programNames : List String :=
  ["[", "bash", "cat", "dash", "echo", "env", "false", "grep", "head", "kill", "mkdir", "pgrep",
    "printf", "prlimit", "pwd", "rm", "seq", "sh", "sleep", "test", "touch", "tr", "true", "yes"]

/-- A program has no text; its mode lets everyone run it. -/
def programFile : Node := .file [] 0o755 (.known 0)

/-- The tree of a machine on which nothing but its programs is installed. The service has no limits. -/
def machine : Tree :=
  let folders : List Place :=
    [["usr"], ["usr", "local"], ["etc"], ["dev"], ["proc"], limitsPlace.dropLast, ["tmp"], ["var"],
      ["root"], ["home"]] ++ programFolders
  let programs := programNames.flatMap fun name => [["usr", "bin", name], ["bin", name]]
  ⟨folders.map (·, .folder) ++ programs.map (·, programFile)
    ++ [(["etc", "passwd"], .file [] 0o644 (.known 0)),
      (["dev", "null"], .file [] 0o666 (.known 0)), (["dev", "zero"], .file [] 0o666 (.known 0)),
      (limitsPlace, SizeLimit.shown none)]⟩

/-- What a path to a program leads to. -/
inductive Executable where
  /-- One of the machine's own programs. -/
  | program (name : String)
  /-- A file that names the shell in its first line. -/
  | script (strict : Bool) (text : String)
  deriving DecidableEq, Repr

/-- Paths to the shell. -/
def shellPaths : List String :=
  ["/bin/sh", "/usr/bin/sh", "/bin/bash", "/usr/bin/bash", "/bin/dash", "/usr/bin/dash"]

/-- The words of the first line of a file, if by it the file names the program that runs it. -/
def runnerWords (bytes : Bytes) : List String :=
  match Text.decodeLossyChars (bytes.takeWhile (· ≠ 10)) with
  | '#' :: '!' :: r => ((String.ofList r).splitOn " ").filter (· ≠ "")
  | _ => []

/-- The script in a file that asks to be run by the shell. -/
def scriptIn? (bytes : Bytes) : Option Executable :=
  let words := runnerWords bytes
  let isForShell : Bool := match words with
    | "/usr/bin/env" :: w :: _ => shellPaths.contains ("/bin/" ++ w)
    | w :: _ => shellPaths.contains w
    | [] => false
  if isForShell then some (.script (words.contains "-e") (Text.decodeLossy bytes)) else none

/-- The program at a path, or why there is none. -/
def executableAt (t : Tree) (here : Place) (p : Path) (asFolder : Bool) : Except Cause Executable :=
  match t.walk true here p with
  | .error cause => .error cause
  | .ok place =>
    match t.get? place with
    | none => .error .noEntry
    | some .folder => .error .accessDenied
    | some (.link _) => .error .tooManyLinks
    | some (.file bytes mode _) =>
      if asFolder then .error .notDirectory
      else if mode &&& 0o111 = 0 then .error .accessDenied
      else if programFolders.contains place.dropLast && bytes.isEmpty then
        .ok (.program (place.getLast?.getD ""))
      else
        match scriptIn? bytes with
        | some e => .ok e
        | none => .error .badFormat

/-- Look a name up in folders. What is found but cannot be run is remembered. -/
def lookUpIn (t : Tree) (here : Place) (name : String) (cause : Option Cause) :
    List Place → Except Cause Executable
  | [] => .error (cause.getD .noEntry)
  | folder :: folders =>
    let p := Path.ofText ((Place.path folder).text ++ "/" ++ name)
    match executableAt t here p false with
    | .ok e => .ok e
    | .error c =>
      let cause := if c = .noEntry || c = .notDirectory then cause else some (cause.getD c)
      lookUpIn t here name cause folders

/-- The program that the first argument of a command names. -/
def lookUp (t : Tree) (here : Place) (name : String) : Except Cause Executable :=
  if name.toList.contains '/' then
    executableAt t here (Path.ofText name) (name.toList.getLast? = some '/')
  else lookUpIn t here name none programFolders

end ConfigSteward.Shell
