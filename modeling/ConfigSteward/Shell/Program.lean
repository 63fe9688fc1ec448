import ConfigSteward.Shell.Batch
import ConfigSteward.Shell.State

/-! # Programs that run no script -/
namespace ConfigSteward.Shell

/-- The numbers of signals by name. -/
def signals : List (String × Nat) := [
  ("EXIT", 0), ("HUP", 1), ("INT", 2), ("QUIT", 3), ("ILL", 4), ("TRAP", 5), ("ABRT", 6),
  ("BUS", 7), ("FPE", 8), ("KILL", 9), ("USR1", 10), ("SEGV", 11), ("USR2", 12), ("PIPE", 13), ("ALRM", 14),
  ("TERM", 15), ("CHLD", 17), ("CONT", 18), ("STOP", 19), ("URG", 23), ("WINCH", 28)]

/-- A signal by its name, with or without the usual start of it, or by its number. -/
def signal? (s : String) : Option Nat :=
  let s := if s.startsWith "SIG" then String.ofList (s.toList.drop 3) else s
  match wholeNumber? s with
  | some n => some n.toNat
  | none => (signals.find? (·.1 = s.toUpper)).map (·.2)

/-- What a shell says of a program that a signal ended. -/
def obituary (signal : Nat) : String :=
  match signal with
  | 1 => "Hangup\n"
  | 6 => "Aborted\n"
  | 9 => "Killed\n"
  | 10 => "User defined signal 1\n"
  | 11 => "Segmentation fault\n"
  | 12 => "User defined signal 2\n"
  | 15 => "Terminated\n"
  | _ => ""

/-- The signals that end no program by themselves. -/
def isIgnored (signal : Nat) : Bool := [0, 17, 18, 23, 28].contains signal

/-- The signal and the processes that the arguments of `kill` name. -/
def killTarget (args : List String) : Option (Nat × List String) :=
  match args with
  | "-s" :: name :: targets => (signal? name).map (·, targets)
  | a :: targets =>
    match a.toList with
    | '-' :: r => (signal? (String.ofList r)).map (·, targets)
    | _ => some (15, args)
  | [] => none

/-- Compare two whole numbers as `test` does. -/
def compareBy (operator : String) (a b : Int) : Option Bool :=
  match operator with
  | "-eq" => some (a = b)
  | "-ne" => some (a ≠ b)
  | "-lt" => some (a < b)
  | "-le" => some (a ≤ b)
  | "-gt" => some (b < a)
  | "-ge" => some (b ≤ a)
  | _ => none

/-- Ask about one text. -/
def ask (s : State) (operator operand : String) : Option Bool :=
  match operator, s.node? operand with
  | "-n", _ => some (operand ≠ "")
  | "-z", _ => some (operand = "")
  | "-e", n => some n.isSome
  | "-d", n => some (n = some .folder)
  | "-f", some (.file ..) => some true
  | "-f", _ => some false
  | "-s", some (.file bytes _ _) => some (!bytes.isEmpty)
  | "-s", _ => some false
  | "-r", n => some n.isSome
  | "-w", n => some n.isSome
  | "-x", some (.file _ mode _) => some (mode &&& 0o111 ≠ 0)
  | "-x", n => some n.isSome
  | _, _ => none

/-- What `test` says; `none` if it does not understand the question. -/
def testAnswer (s : State) : List String → Option Bool
  | [] => some false
  | [a] => some (a ≠ "")
  | "!" :: args => (testAnswer s args).map not
  | [operator, a] => ask s operator a
  | [a, operator, b] =>
    match operator with
    | "=" => some (a = b)
    | "!=" => some (a ≠ b)
    | _ => do compareBy operator (← wholeNumber? a) (← wholeNumber? b)
  | _ => none

/-- Sleep for the sum of some times. -/
def sleep (s : State) (args : List String) : Effect :=
  let times := args.map duration?
  let help := "\nTry 'sleep --help' for more information.\n"
  if args.isEmpty then finish (s.err ("sleep: missing operand" ++ help)) 1
  else if times.any Option.isNone then
    let faults := (args.filter fun a => (duration? a).isNone).map fun a =>
      "sleep: invalid time interval ‘" ++ a ++ "’"
    finish (s.err ("\n".intercalate faults ++ help)) 1
  else if times.any fun t => t = some none then (s, .endless)
  else
    let total := times.foldl (fun n t => n + ((t.getD none).getD 0)) 0
    finish { s with elapsed := s.elapsed + total } 0

/-- The first lines of a content, line breaks included. -/
def firstLines : Nat → Bytes → Bytes
  | 0, _ => []
  | _, [] => []
  | n + 1, b :: r => if b = 10 then b :: firstLines n r else b :: firstLines (n + 1) r

/-- What `head` writes of its input, or of the file of zeros. -/
def head (s : State) (args : List String) : Effect :=
  let count := fun (a : String) => ((wholeNumber? a).map Int.toNat).getD 0
  match args with
  | ["-c", n] => finish (s.out (s.input.take (count n))) 0
  | ["-c", n, "/dev/zero"] => finish (s.out (List.replicate (count n) 0)) 0
  | ["-n", n] => finish (s.out (firstLines (count n) s.input)) 0
  | _ => finish (s.out (firstLines 10 s.input)) 0

/-- The characters that a set names: ranges and escapes are resolved. -/
def charSet : List Char → List Char
  | a :: '-' :: b :: r =>
    (List.range (b.toNat + 1 - a.toNat)).map (fun i => Char.ofNat (a.toNat + i)) ++ charSet r
  | '\\' :: '0' :: r => '\x00' :: charSet r
  | '\\' :: 'n' :: r => '\n' :: charSet r
  | c :: r => c :: charSet r
  | [] => []

/-- What `tr` writes: each character of the first set gives way to that of the second at its place,
or to the last one. -/
def substitute (s : State) (first second : List Char) : Effect :=
  let change := fun (b : UInt8) =>
    match first.findIdx? (·.toNat = b.toNat) with
    | some i => ((second[i]?.getD (second.getLast?.getD ' ')).toNat).toUInt8
    | none => b
  finish (s.out (s.input.map change)) 0

/-- How many lines a program that writes without end gets rid of when its output is read. -/
def enoughLines : Nat := 20000

/-- Write a line again and again. -/
def repeatLine (s : State) (args : List String) : Effect :=
  let line := if args.isEmpty then "y" else " ".intercalate args
  if s.streams.out = .captured then
    finish (s.out (List.replicate enoughLines (Text.encodeString (line ++ "\n"))).flatten) 0
  else (s, .endless)

/-- The content of files one after the other. -/
def cat (s : State) : List String → Effect
  | [] => finish s 0
  | file :: files =>
    match if file = "-" then .ok s.input else s.content file with
    | .ok bytes => cat (s.out bytes) files
    | .error cause =>
      let (s, flow) := cat (s.err ("cat: " ++ file ++ ": " ++ cause.words ++ "\n")) files
      (s.withStatus 1, flow)

/-! ## Files -/

/-- Whether an argument is an option. -/
def isOption (a : String) : Bool := a.startsWith "-" && a ≠ "-"

/-- A report on a file that a program could not deal with. -/
def complaint (program deed file : String) (cause : Cause) : String :=
  let shown := if program = "mkdir" then "‘" ++ file ++ "’" else "'" ++ file ++ "'"
  program ++ ": " ++ deed ++ " " ++ shown ++ ": " ++ cause.words ++ "\n"

/-- Deal with files one after the other; the status tells whether all went well. -/
def forFiles (deal : State → String → Except Cause Tree) (complain : String → Cause → String)
    (s : State) : List String → Effect
  | [] => finish s 0
  | file :: files =>
    match deal s file with
    | .ok tree => forFiles deal complain { s with tree := tree } files
    | .error cause =>
      let (s, flow) := forFiles deal complain (s.err (complain file cause)) files
      (s.withStatus 1, flow)

def removeEntry (force everything : Bool) (s : State) (file : String) : Except Cause Tree := do
  let ignore : Cause → Except Cause Tree := fun c => if force then .ok s.tree else .error c
  match s.walk false file with
  | .error c => ignore c
  | .ok place =>
    match s.tree.get? place with
    | none => ignore .noEntry
    | some .folder => if everything then .ok (s.tree.removeAll place) else .error .isDirectory
    | some _ => .ok (s.tree.remove place)

def touchEntry (s : State) (file : String) : Except Cause Tree := do
  let place ← s.walk true file
  match s.tree.get? place with
  | none => return s.tree.put place (.file [] 0o644 .lately)
  | some (.file bytes mode _) => return s.tree.put place (.file bytes mode .lately)
  | some _ => return s.tree

/-- Make the folders on the way to a place, where there is nothing yet. Links to folders are followed. -/
def makeFolders (t : Tree) (done : Place) : List String → Except Cause Tree
  | [] => .ok t
  | name :: names =>
    let place := done ++ [name]
    match t.get? place with
    | none => makeFolders (t.put place .folder) place names
    | some .folder => makeFolders t place names
    | some _ =>
      match t.walk true [] place.path with
      | .error cause => .error cause
      | .ok goal =>
        if t.isFolder goal then makeFolders t goal names
        else .error (if names = [] then .alreadyThere else .notDirectory)

def makeEntry (withParents : Bool) (s : State) (file : String) : Except Cause Tree := do
  let p := Path.ofText file
  if withParents then makeFolders s.tree [] (Path.collapse (p.start s.here) p.parts)
  else
    let place ← s.walk false file
    if (s.tree.get? place).isSome then throw .alreadyThere
    return s.tree.put place .folder

/-- The lines of a content, each with its break. -/
def linesOf : Bytes → List Bytes
  | [] => []
  | b :: r =>
    match linesOf r with
    | l :: ls => if b = 10 then [b] :: l :: ls else (b :: l) :: ls
    | [] => [[b]]

/-- Whether a text stands somewhere in a line. -/
def occursIn (word : Bytes) : Bytes → Bool
  | [] => word.isEmpty
  | b :: r => word.isPrefixOf (b :: r) || occursIn word r

/-- The lines that hold a word, each with its break. -/
def matchingLines (inverted : Bool) (word : String) (bytes : Bytes) : List Bytes :=
  (linesOf bytes).filter fun l =>
    occursIn (Text.encodeString word) (l.filter (· ≠ 10)) ≠ inverted

/-- Look for a word in files. -/
def grep (s : State) (args : List String) : Effect :=
  let options := ((args.filter isOption).flatMap String.toList)
  match args.filter fun a => !isOption a with
  | [] => finish s 2
  | word :: files =>
    let contents :=
      if files.isEmpty then [("", .ok s.input)] else files.map fun f => (f, s.content f)
    let s := contents.foldl (fun s c =>
      match c.2 with
      | .error cause => s.err ("grep: " ++ c.1 ++ ": " ++ cause.words ++ "\n")
      | .ok _ => s) s
    let found := contents.flatMap fun c =>
      match c.2 with
      | .error _ => []
      | .ok bytes =>
        let label := if files.length < 2 then [] else Text.encodeString (c.1 ++ ":")
        (matchingLines (options.contains 'v') word bytes).map fun l =>
          label ++ l.filter (· ≠ 10) ++ [10]
    let failed := contents.any fun c => match c.2 with
      | .error _ => true
      | .ok _ => false
    let quiet := options.contains 'q'
    let s := if quiet then s
      else if options.contains 'c' then s.out (Text.encodeString (toString found.length ++ "\n"))
      else s.out found.flatten
    finish s (if failed && !(quiet && !found.isEmpty) then 2 else if found.isEmpty then 1 else 0)

/-! ## Limits -/

/-- The value of an option, which stands behind it or after an equals sign. -/
def optionValue? (name : String) : List String → Option String
  | [] => none
  | a :: args =>
    if a = name then args.head?
    else if a.startsWith (name ++ "=") then some (String.ofList (a.toList.drop (name.length + 1)))
    else optionValue? name args

/-- Set the limit on the size of files for the service, to what stands before the colon. Other limits
and those of other processes make no difference. -/
def setLimit (s : State) (args : List String) : Effect :=
  let order := String.ofList (((optionValue? "--fsize" args).getD "").toList.takeWhile (· ≠ ':'))
  let limited := fun (limit : Option Nat) =>
    match s.tree.get? limitsPlace with
    | some (.file ..) =>
      if optionValue? "--pid" args = some serviceProcess then
        { s with tree := s.tree.limitSize limit }
      else s
    | _ => s
  if order = "" then finish s 0
  else if order = "unlimited" then finish (limited none) 0
  else
    match wholeNumber? order with
    | some n => finish (limited (some n.toNat)) 0
    | none => finish (s.err "prlimit: failed to parse FSIZE limit\n") 1

/-- The programs that do without a script. `none` says that there is none of that name. -/
def runProgram (s : State) (name : String) (args : List String) : Option Effect :=
  let lookAt := fun args => match testAnswer s args with
    | some true => finish s 0
    | some false => finish s 1
    | none => finish s 2
  let files := args.filter fun a => !isOption a
  match name with
  | "true" => some (finish s 0)
  | "false" => some (finish s 1)
  | "echo" => some (finish (s.out (echo args)) 0)
  | "printf" =>
    match args with
    | format :: args => some (finish (s.out (printf format args)) 0)
    | [] =>
      some (finish
        (s.err "printf: missing operand\nTry 'printf --help' for more information.\n") 1)
  | "sleep" => some (sleep s args)
  | "pgrep" => some (finish s 1)
  | "prlimit" => some (setLimit s args)
  | "pwd" => some (finish (s.out (Text.encodeString (s.here.path.text ++ "\n"))) 0)
  | "cat" => some (cat s (if args.isEmpty then ["-"] else args))
  | "head" => some (head s args)
  | "yes" => some (repeatLine s args)
  | "tr" =>
    match args with
    | [first, second] => some (substitute s (charSet first.toList) (charSet second.toList))
    | _ => some (finish s 1)
  | "seq" =>
    match args.map wholeNumber? with
    | [some last] => some (finish (s.out (sequenceLines 1 last)) 0)
    | [some first, some last] => some (finish (s.out (sequenceLines first last)) 0)
    | _ => some (finish (s.err "seq: missing operand\n") 1)
  | "grep" => some (grep s args)
  | "rm" =>
    let options := (args.filter isOption).flatMap String.toList
    let everything := options.contains 'r' || options.contains 'R'
    some (forFiles (removeEntry (options.contains 'f') everything)
      (complaint "rm" "cannot remove") s files)
  | "touch" => some (forFiles touchEntry (complaint "touch" "cannot touch") s files)
  | "mkdir" =>
    some (forFiles (makeEntry (args.contains "-p"))
      (complaint "mkdir" "cannot create directory") s files)
  | "test" => some (lookAt args)
  | "[" =>
    if args.getLast? = some "]" then some (lookAt args.dropLast)
    else some (finish (s.err "[: missing ]\n") 2)
  | _ => none

/-- Export a variable, which may be given a value along with it. -/
def State.export (s : State) (arg : String) : State :=
  match assignment? [.text arg] with
  | some (name, [.text value]) => s.set name value
  | _ => s

end ConfigSteward.Shell
