import ConfigSteward.Shell.Expansion
import ConfigSteward.Shell.Program

/-! # Running scripts

Commands are carried out one after the other. A run ends with a status, by a signal or not at all.
-/
namespace ConfigSteward.Shell

def message (x : Setting) (line : Nat) (text : String) : String :=
  x.name ++ ": " ++ toString line ++ ": " ++ text ++ "\n"

/-- What a shell says of a file that it cannot make. -/
def creationFault (target : String) (cause : Cause) : String :=
  let words := if cause = .noEntry || cause = .notDirectory then "Directory nonexistent"
    else cause.words
  "cannot create " ++ target ++ ": " ++ words

/-- What a shell says of a file that it cannot read. -/
def openingFault (target : String) (cause : Cause) : String :=
  let words := if cause = .noEntry || cause = .notDirectory then "No such file" else cause.words
  "cannot open " ++ target ++ ": " ++ words

/-- Open a file to write into it; what it held goes unless it is `kept`. -/
def openFile (s : State) (kept : Bool) (target : String) : Except Cause (Sink × State) := do
  let place ← s.walk true target
  match s.tree.get? place with
  | some (.file _ mode _) =>
    if kept then return (.file place, s)
    else return (.file place, { s with tree := s.tree.put place (.file [] mode .lately) })
  | some _ => throw .isDirectory
  | none => return (.file place, { s with tree := s.tree.put place (.file [] 0o644 .lately) })

/-- The sink that a descriptor or a file's name stands for. -/
def sinkOf (s : State) (kind : RedirectKind) (target : String) : Except Cause (Sink × State) :=
  match kind, target with
  | .copy, "1" => .ok (s.streams.out, s)
  | .copy, "2" => .ok (s.streams.err, s)
  | .copy, _ => .ok (.nowhere, s)
  | _, "/dev/null" => .ok (.nowhere, s)
  | _, "/dev/stdout" => .ok (s.streams.out, s)
  | _, "/dev/stderr" => .ok (s.streams.err, s)
  | kind, _ => openFile s (kind = .append) target

/-- Let a descriptor lead to a sink. -/
def lead (s : State) (descriptor : Nat) (sink : Sink) : State :=
  if descriptor = 1 then { s with streams := { s.streams with out := sink } }
  else if descriptor = 2 then { s with streams := { s.streams with err := sink } }
  else s

/-- Open what one redirection names, or tell why that fails. -/
def openTarget (s : State) (r : Redirect) (target : String) : Except String State :=
  if r.kind = .read then
    if target = "/dev/null" then .ok { s with input := [] }
    else
      match s.content target with
      | .ok bytes => .ok { s with input := bytes }
      | .error cause => .error (openingFault target cause)
  else
    match sinkOf s r.kind target with
    | .ok (sink, s) => .ok (lead s r.descriptor sink)
    | .error cause => .error (creationFault target cause)

/-- A state with the streams that it had before redirections. -/
def restored (before s : State) (rs : List Redirect) : State :=
  { s with
    streams := before.streams
    input := if rs.any (·.kind = .read) then before.input else s.input }

/-- The commands that are part of the shell itself. -/
def builtins : List String :=
  [":", "exit", "return", "break", "continue", "kill", "cd", "set", "trap", "export", "shift",
    "umask", "ulimit", "wait", "unset", "readonly", "local", "eval", "exec", "read"]

/-- A status that was given as text. -/
def statusOf (s : State) (args : List String) : Nat :=
  match args with
  | a :: _ => ((wholeNumber? a).map fun n => (n % 256).toNat).getD 2
  | [] => s.status

def loopCount (args : List String) : Nat :=
  ((args.head?.bind wholeNumber?).map Int.toNat).getD 1

/-- What leaves a script leaves no more than the shell of its own that runs it. -/
def leaveShell : Flow → Flow
  | .exit => .next
  | .back => .next
  | flow => flow

/-- How much a script may do before it counts as endless. -/
def plenty : Nat := 200000

mutual

/-- Expand a word into fragments. -/
def expand (x : Setting) (s : State) (w : Word) : Nat → List Fragment × State
  | 0 => ([], s)
  | fuel + 1 =>
    match w with
    | [] => ([], s)
    | .text t :: w =>
      let (fs, s) := expand x s w fuel
      (.free t :: fs, s)
    | .literal t :: w =>
      let (fs, s) := expand x s w fuel
      (.solid t :: fs, s)
    | .variable quoted name :: w =>
      let (fs, s') := expand x s w fuel
      if quoted && name = "@" then (.separate s.args :: fs, s')
      else
        let value := bracedValue x s name
        ((if quoted then .solid value else .loose value) :: fs, s')
    | .arithmetic formula :: w =>
      let value := match evaluate (s.get ·) formula with
        | some n => toString n
        | none => ""
      let (fs, s) := expand x s w fuel
      (.solid value :: fs, s)
    | .output quoted script :: w =>
      let (text, s) := outputOf x s script fuel
      let (fs, s) := expand x s w fuel
      ((if quoted then .solid text else .loose text) :: fs, s)

/-- The output of a script as a text. -/
def outputOf (x : Setting) (s : State) (script : String) : Nat → String × State
  | 0 => ("", s)
  | fuel + 1 =>
    let inner := { s with captured := [], streams := { s.streams with out := .captured } }
    let (inner, _) := runBatch x inner (Batch.ofText script) fuel
    let bytes := inner.captured.reverse.flatten
    (Text.decodeLossy (dropFinalBreaks bytes), { s.after inner with captured := s.captured })

def expandAll (x : Setting) (s : State) (ws : List Word) : Nat → List String × State
  | 0 => ([], s)
  | fuel + 1 =>
    match ws with
    | [] => ([], s)
    | w :: ws =>
      let (fs, s) := expand x s w fuel
      let (rest, s) := expandAll x s ws fuel
      (wordsOf none fs ++ rest, s)

/-- Carry out assignments. -/
def assign (x : Setting) (s : State) (as : List (String × Word)) : Nat → State
  | 0 => s
  | fuel + 1 =>
    match as with
    | [] => s
    | (name, w) :: as =>
      let (fs, s) := expand x s w fuel
      assign x (s.set name (textOf fs)) as fuel

/-- Carry out redirections. One that fails is reported and stops the others. -/
def redirect (x : Setting) (s : State) (rs : List Redirect) : Nat → Except (State × String) State
  | 0 => .ok s
  | fuel + 1 =>
    match rs with
    | [] => .ok s
    | r :: rs =>
      let (fields, s) := expandAll x s [r.target] fuel
      match openTarget s r (fields.headD "") with
      | .ok s => redirect x s rs fuel
      | .error report => .error (s, report)

def runBatch (x : Setting) (s : State) (b : Batch) : Nat → Effect
  | 0 => (s, .endless)
  | fuel + 1 =>
    match runList x s b.commands fuel with
    | (s, .next) =>
      match b.fault with
      | none => (s, .next)
      | some (line, f) => ((s.err (message x line f.message)).withStatus 2, .exit)
    | effect => effect

def runList (x : Setting) (s : State) (cs : List Command) : Nat → Effect
  | 0 => (s, .endless)
  | fuel + 1 =>
    match cs with
    | [] => (s, .next)
    | c :: cs =>
      match runCommand x s c fuel with
      | (s, .next) =>
        let mayFail := match c with
          | .all .. => true
          | .any .. => true
          | .not _ => true
          | _ => false
        if s.strict && s.status ≠ 0 && !mayFail then (s, .exit) else runList x s cs fuel
      | effect => effect

def runCommand (x : Setting) (s : State) (c : Command) : Nat → Effect
  | 0 => (s, .endless)
  | fuel + 1 =>
    match c with
    | .simple line assignments words redirects =>
      let (fields, s) := expandAll x s words fuel
      match redirect x s redirects fuel with
      | .error (failed, report) =>
        finish (restored s (failed.err (message x line report)) redirects) 2
      | .ok inner =>
        match fields with
        | [] => (restored s (assign x (inner.withStatus 0) assignments fuel) redirects, .next)
        | ["exec"] => finish inner 0
        | name :: args =>
          let (inner, flow) := runNamed x (assign x inner assignments fuel) line name args fuel
          (restored s inner redirects, flow)
    | .group isolated body redirects =>
      match redirect x s redirects fuel with
      | .error (failed, report) =>
        finish (restored s (failed.err (message x 1 report)) redirects) 2
      | .ok inner =>
        let (inner, flow) := runList x inner body fuel
        let inner := restored s inner redirects
        if isolated then (s.after inner, leaveShell flow) else (inner, flow)
    | .all first second =>
      match runCommand x s first fuel with
      | (s, .next) => if s.status = 0 then runCommand x s second fuel else (s, .next)
      | effect => effect
    | .any first second =>
      match runCommand x s first fuel with
      | (s, .next) => if s.status = 0 then (s, .next) else runCommand x s second fuel
      | effect => effect
    | .not body =>
      match runCommand x s body fuel with
      | (s, .next) => finish s (if s.status = 0 then 1 else 0)
      | effect => effect
    | .pipe first second =>
      let inner := { s with captured := [], streams := { s.streams with out := .captured } }
      let (left, flow) := runCommand x inner first fuel
      if flow = .endless then (s, .endless)
      else
        let right := { s.after left with
          captured := s.captured, input := left.captured.reverse.flatten }
        let (right, flow) := runCommand x right second fuel
        (s.after right, leaveShell flow)
    | .branch condition yes no =>
      match runList x { s with strict := false } condition fuel with
      | (inner, .next) =>
        let inner := { inner with strict := s.strict }
        if inner.status = 0 then runList x inner yes fuel
        else runList x (inner.withStatus 0) no fuel
      | effect => effect
    | .repeat whileOk condition body => runRepeat x s whileOk condition body 0 fuel
    | .each name words body =>
      let (fields, s) := expandAll x s words fuel
      runEach x (s.withStatus 0) name fields body fuel
    | .choose subject arms =>
      let (fs, s) := expand x s subject fuel
      runChosen x (s.withStatus 0) (textOf fs).toList arms fuel
    | .define name body =>
      finish { s with functions := (name, body) :: s.functions.filter (·.1 ≠ name) } 0

/-- Run the first arm of which a pattern describes a text. -/
def runChosen (x : Setting) (s : State) (subject : List Char)
    (arms : List (List Word × List Command)) : Nat → Effect
  | 0 => (s, .endless)
  | fuel + 1 =>
    match arms with
    | [] => (s, .next)
    | (patterns, body) :: arms =>
      let (isHere, s) := describes x s subject patterns fuel
      if isHere then runList x s body fuel else runChosen x s subject arms fuel

/-- Whether one of some patterns describes a text. -/
def describes (x : Setting) (s : State) (subject : List Char) (patterns : List Word) :
    Nat → Bool × State
  | 0 => (false, s)
  | fuel + 1 =>
    match patterns with
    | [] => (false, s)
    | w :: ws =>
      let (fs, s) := expand x s w fuel
      if (patternOf fs).accepts subject then (true, s) else describes x s subject ws fuel

/-- Repeat a body; `status` is that of its last round. -/
def runRepeat (x : Setting) (s : State) (whileOk : Bool) (condition body : List Command)
    (status : Nat) : Nat → Effect
  | 0 => (s, .endless)
  | fuel + 1 =>
    match runList x { s with strict := false } condition fuel with
    | (inner, .next) =>
      let inner := { inner with strict := s.strict }
      if (inner.status = 0) = whileOk then
        match runList x inner body fuel with
        | (s, .next) => runRepeat x s whileOk condition body s.status fuel
        | (s, .again 1) => runRepeat x s whileOk condition body s.status fuel
        | (s, .again n) => (s, .again (n - 1))
        | (s, .leave n) => (s, if n ≤ 1 then .next else .leave (n - 1))
        | effect => effect
      else finish inner status
    | effect => effect

def runEach (x : Setting) (s : State) (name : String) (fields : List String)
    (body : List Command) : Nat → Effect
  | 0 => (s, .endless)
  | fuel + 1 =>
    match fields with
    | [] => (s, .next)
    | f :: fields =>
      match runList x (s.set name f) body fuel with
      | (s, .next) => runEach x s name fields body fuel
      | (s, .again 1) => runEach x s name fields body fuel
      | (s, .again n) => (s, .again (n - 1))
      | (s, .leave n) => (s, if n ≤ 1 then .next else .leave (n - 1))
      | effect => effect

/-- Run what a name stands for: a part of the shell, a program or a script. -/
def runNamed (x : Setting) (s : State) (line : Nat) (name : String) (args : List String) :
    Nat → Effect
  | 0 => (s, .endless)
  | fuel + 1 =>
    if let some (_, body) := s.functions.find? (·.1 = name) then
      let (inner, flow) := runCommand x { s with args := args } body fuel
      ({ inner with args := s.args }, if flow = .back then .next else flow)
    else if builtins.contains name then runBuiltin x s line name args fuel
    else if name = "echo" && !x.plainEcho then finish (s.out (builtinEcho args)) 0
    else
      match lookUp s.tree s.here name with
      | .ok e =>
        let before := { s with status := 0, traps := [], strict := false }
        let (inner, flow) := runExecutable { x with parent := ownProcess } before e name args fuel
        let s := s.after inner
        match flow with
        | .killed n => finish (s.err (obituary n)) (128 + n)
        | .endless => (s, .endless)
        | _ => (s, .next)
      | .error cause =>
        if cause = .noEntry || cause = .notDirectory then
          finish (s.err (message x line (name ++ ": not found"))) 127
        else finish (s.err (message x line (name ++ ": " ++ cause.words))) 126

/-- Run a part of the shell. -/
def runBuiltin (x : Setting) (s : State) (line : Nat) (name : String) (args : List String) :
    Nat → Effect
  | 0 => (s, .endless)
  | fuel + 1 =>
    match name with
    | "exit" =>
      match args with
      | a :: _ =>
        if a.startsWith "-" || (wholeNumber? a).isNone then
          ((s.err (message x line ("exit: Illegal number: " ++ a))).withStatus 2, .exit)
        else (s.withStatus (statusOf s args), .exit)
      | [] => (s, .exit)
    | "return" => (s.withStatus (statusOf s args), .back)
    | "break" => (s.withStatus 0, .leave (loopCount args))
    | "continue" => (s.withStatus 0, .again (loopCount args))
    | "shift" =>
      let count := loopCount args
      finish { s with args := s.args.drop count } (if count ≤ s.args.length then 0 else 2)
    | "cd" =>
      let target := args.headD "/root"
      match s.walk true target with
      | .ok place =>
        if s.tree.get? place = some .folder then finish { s with here := place } 0
        else finish (s.err (message x line ("cd: can't cd to " ++ target))) 2
      | .error _ => finish (s.err (message x line ("cd: can't cd to " ++ target))) 2
    | "set" =>
      let s := match args.dropWhile (· ≠ "--") with
        | _ :: rest => { s with args := rest }
        | [] => s
      finish { s with strict := (s.strict || args.contains "-e") && !args.contains "+e" } 0
    | "trap" =>
      match args with
      | action :: names =>
        let new := (names.filterMap signal?).map fun n => (n, action)
        finish { s with traps := new ++ s.traps } 0
      | [] => finish s 0
    | "read" =>
      let line := s.input.takeWhile (· ≠ 10)
      let rest := s.input.drop (line.length + 1)
      let value := Text.decodeLossy line
      finish ({ s with input := rest }.set (args.headD "REPLY") value)
        (if line.length < s.input.length then 0 else 1)
    | "unset" => finish (args.foldl (fun s name => s.set name "") s) 0
    | "export" => finish (args.foldl State.export s) 0
    | "local" => finish (args.foldl State.export s) 0
    | "readonly" => finish (args.foldl State.export s) 0
    | "eval" => runBatch x s (Batch.ofText (" ".intercalate args)) fuel
    | "exec" =>
      match args with
      | [] => finish s 0
      | program :: args =>
        match lookUp s.tree s.here program with
        | .error _ =>
          ((s.err (message x line ("exec: " ++ program ++ ": not found"))).withStatus 127, .exit)
        | .ok e =>
          let (s, flow) := runExecutable x s e program args fuel
          (s, if flow = .next then .exit else flow)
    | "kill" =>
      match killTarget args with
      | some (signal, targets) =>
        if targets.contains ownProcess then
          if signal = 9 then (s, .killed 9)
          else if signal = 19 then (s, .endless)
          else
            match s.traps.find? (·.1 = signal) with
            | some (_, action) =>
              if action = "-" then (s, if isIgnored signal then .next else .killed signal)
              else
                let (s, flow) := runBatch x s (Batch.ofText action) fuel
                (s.withStatus 0, flow)
            | none => if isIgnored signal then finish s 0 else (s, .killed signal)
        else finish (s.err (message x line "kill: No such process")) 1
      | none => finish s 2
    | _ => finish s 0

/-- Run a program or a script that a file holds. -/
def runExecutable (x : Setting) (s : State) (e : Executable) (name : String)
    (args : List String) : Nat → Effect
  | 0 => (s, .endless)
  | fuel + 1 =>
    let fresh := { s with bindings := [("PPID", x.parent)], functions := [], args := args }
    match e with
    | .script strict text =>
      runShell { x with name := name } { fresh with strict := strict } (Batch.ofText text) fuel
    | .program program =>
      if program = "sh" || program = "dash" || program = "bash" then
        let plainEcho := program = "bash"
        match args with
        | "-c" :: text :: rest =>
          runShell { x with name := rest.headD name, plainEcho } { fresh with args := rest.tail }
            (Batch.ofText text) fuel
        | "-c" :: [] => finish (s.err (name ++ ": 0: -c requires an argument\n")) 2
        | [] =>
          runShell { x with name := name, plainEcho } fresh
            (Batch.ofText (Text.decodeLossy s.input)) fuel
        | file :: rest =>
          match s.content file with
          | .ok bytes =>
            runShell { x with name := file, plainEcho } { fresh with args := rest }
              (Batch.ofText (Text.decodeLossy bytes)) fuel
          | .error cause =>
            finish (s.err (name ++ ": 0: " ++ openingFault file cause ++ "\n")) 2
      else if program = "env" then
        let (assignments, rest) := args.span fun a => a.toList.contains '='
        match rest with
        | [] => finish s 0
        | command :: args =>
          runNamed { x with plainEcho := true } (assignments.foldl State.export s) 1 command args
            fuel
      else
        match runProgram s program args with
        | some effect => effect
        | none => finish s 0

/-- Run a shell to its end, with what it does at the end. -/
def runShell (x : Setting) (s : State) (b : Batch) : Nat → Effect
  | 0 => (s, .endless)
  | fuel + 1 =>
    match runBatch x s b fuel with
    | (s, .killed n) => (s, .killed n)
    | (s, .endless) => (s, .endless)
    | (s, _) =>
      match s.traps.find? (·.1 = 0) with
      | some (_, action) =>
        let status := s.status
        match runBatch x { s with traps := [] } (Batch.ofText action) fuel with
        | (s, .next) => finish s status
        | (s, .exit) => (s, .next)
        | effect => effect
      | none => (s, .next)

end
end ConfigSteward.Shell
