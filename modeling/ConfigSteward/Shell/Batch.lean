import ConfigSteward.Shell.Lexeme

/-! # Batches of commands

A batch is a script that has been read. -/
namespace ConfigSteward.Shell

/-- The words that end a list of commands. -/
def closingWords : List String := ["then", "else", "elif", "fi", "do", "done", "esac", "\x7d"]

/-- Whether a list of commands ends here. -/
def Source.atClose (s : Source) : Bool :=
  match s.lexemes with
  | .bare w :: _ => closingWords.contains w
  | .mark w :: _ => w = ")" || w = ";;"
  | [] => true
  | _ => false

/-- The word that a lexeme stands for, if it is one. -/
def Lexeme.word? : Lexeme → Option Word
  | .word w => some w
  | .bare s => some [.text s]
  | _ => none

/-- A word of the form `name=value` as an assignment. -/
def assignment? (w : Word) : Option (String × Word) :=
  match w with
  | .text s :: rest =>
    let name := s.toList.takeWhile (· ≠ '=')
    match s.toList.dropWhile (· ≠ '=') with
    | '=' :: value =>
      if isName (String.ofList name) then
        some (String.ofList name, .text (String.ofList value) :: rest)
      else none
    | _ => none
  | _ => none

/-- A command under way that is not compound. -/
structure SimpleParts where
  assignments : List (String × Word) := []
  words : List Word := []
  redirects : List Redirect := []

/-- Take a word into a command: as an assignment as long as no other word came. -/
def SimpleParts.add (p : SimpleParts) (w : Word) : SimpleParts :=
  match p.words, assignment? w with
  | [], some a => { p with assignments := p.assignments ++ [a] }
  | _, _ => { p with words := p.words ++ [w] }

/-- Read redirections. -/
def readRedirects (s : Source) (done : List Redirect) :
    Nat → Except Misplaced (List Redirect × Source)
  | 0 => .ok (done, s)
  | fuel + 1 =>
    match s.lexemes with
    | .redirect d kind :: l :: _ =>
      match l.word? with
      | some w => readRedirects s.tail.tail (done ++ [⟨d, kind, w⟩]) fuel
      | none => .error (s.tail.fault none)
    | .redirect .. :: [] => .error (s.tail.fault none)
    | _ => .ok (done, s)

def readSimple (p : SimpleParts) (s : Source) : Nat → Except Misplaced (SimpleParts × Source)
  | 0 => .ok (p, s)
  | fuel + 1 =>
    match s.lexemes with
    | .redirect .. :: _ => do
      let (rs, s) ← readRedirects s [] 1
      readSimple { p with redirects := p.redirects ++ rs } s fuel
    | l :: _ =>
      match l.word? with
      | some w => readSimple (p.add w) s.tail fuel
      | none => .ok (p, s)
    | [] => .ok (p, s)

/-- The words up to the end of a line or a semicolon. -/
def readWords (s : Source) (done : List Word) : Nat → List Word × Source
  | 0 => (done, s)
  | fuel + 1 =>
    match s.lexemes.head?.bind Lexeme.word? with
    | some w => readWords s.tail (done ++ [w]) fuel
    | none => (done, s)

/-- Whether a mark that parts commands stands here. -/
def Source.atSeparator (s : Source) : Bool :=
  match s.lexemes with
  | .newline :: _ => true
  | .mark w :: _ => w = ";" || w = "&"
  | _ => false

/-- Whether an arm of a choice by patterns ends here. -/
def Source.atArmEnd (s : Source) : Bool :=
  match s.lexemes with
  | .mark ";;" :: _ => true
  | .bare "esac" :: _ => true
  | _ => false

/-- Read the patterns of an arm and the bracket after them. -/
def readPatterns (s : Source) (done : List Word) : Nat → Except Misplaced (List Word × Source)
  | 0 => .error (s.fault none)
  | fuel + 1 => do
    let some w := s.lexemes.head?.bind Lexeme.word? | throw (s.fault none)
    match s.tail.lexemes with
    | .mark "|" :: _ => readPatterns s.tail.tail (done ++ [w]) fuel
    | .mark ")" :: _ => return (done ++ [w], s.tail.tail)
    | _ => throw (s.tail.fault (some ")"))

mutual

/-- Read commands up to a word that closes a list. -/
def readList (s : Source) (done : List Command) : Nat → Except Misplaced (List Command × Source)
  | 0 => .error (s.fault none)
  | fuel + 1 =>
    let s := s.skipNewlines
    if s.atClose then
      if done.isEmpty then .error (s.fault none) else .ok (done, s)
    else do
      let (c, s) ← readAndOr s fuel
      let s := if s.atSeparator then s.tail else s
      readList s (done ++ [c]) fuel

def readAndOr (s : Source) : Nat → Except Misplaced (Command × Source)
  | 0 => .error (s.fault none)
  | fuel + 1 => do
    let (c, s) ← readPipeline s fuel
    readAndOrRest c s fuel

def readAndOrRest (first : Command) (s : Source) : Nat → Except Misplaced (Command × Source)
  | 0 => .error (s.fault none)
  | fuel + 1 =>
    match s.lexemes with
    | .mark "&&" :: _ => do
      let (c, s) ← readPipeline s.tail.skipNewlines fuel
      readAndOrRest (.all first c) s fuel
    | .mark "||" :: _ => do
      let (c, s) ← readPipeline s.tail.skipNewlines fuel
      readAndOrRest (.any first c) s fuel
    | _ => .ok (first, s)

def readPipeline (s : Source) : Nat → Except Misplaced (Command × Source)
  | 0 => .error (s.fault none)
  | fuel + 1 =>
    match s.lexemes with
    | .bare "!" :: _ => do
      let (c, s) ← readPipeline s.tail fuel
      return (.not c, s)
    | _ => do
      let (c, s) ← readCommand s fuel
      match s.lexemes with
      | .mark "|" :: _ =>
        let (d, s) ← readPipeline s.tail.skipNewlines fuel
        return (.pipe c d, s)
      | _ => return (c, s)

/-- Read one command with its redirections. -/
def readCommand (s : Source) : Nat → Except Misplaced (Command × Source)
  | 0 => .error (s.fault none)
  | fuel + 1 =>
    match s.lexemes with
    | .bare "if" :: _ => do
      let (c, s) ← readBranch s.tail fuel
      redirected c s
    | .bare "while" :: _ => do
      let (c, s) ← readRepeat true s.tail fuel
      redirected c s
    | .bare "until" :: _ => do
      let (c, s) ← readRepeat false s.tail fuel
      redirected c s
    | .bare "for" :: .bare name :: _ => do
      let s := s.tail.tail
      let (ws, s) := match s.lexemes with
        | .bare "in" :: _ => readWords s.tail [] s.lexemes.length
        | _ => ([[.variable true "@"]], s)
      let s := if s.atSeparator then s.tail else s
      let (body, s) ← readList (← s.expect "do") [] fuel
      redirected (.each name ws body) (← s.expect "done")
    | .bare "case" :: l :: _ => do
      let some subject := l.word? | throw (s.tail.fault none)
      let s ← s.tail.tail.expect "in"
      let (arms, s) ← readArms s [] fuel
      redirected (.choose subject arms) (← s.expect "esac")
    | .bare name :: .mark "(" :: .mark ")" :: _ => do
      let (body, s) ← readCommand s.tail.tail.tail.skipNewlines fuel
      return (.define name body, s)
    | .bare "\x7b" :: _ => do
      let (body, s) ← readList s.tail [] fuel
      redirected (.group false body []) (← s.expect "\x7d")
    | .mark "(" :: _ => do
      let (body, s) ← readList s.tail [] fuel
      redirected (.group true body []) (← s.expect ")")
    | .mark _ :: _ => .error (s.fault none)
    | .bare w :: _ =>
      if closingWords.contains w then .error (s.fault none) else plain s
    | _ => plain s

/-- A command with the redirections after it. -/
def redirected (c : Command) (s : Source) : Except Misplaced (Command × Source) := do
  let (rs, s) ← readRedirects s [] s.lexemes.length
  return match c with
    | .group isolated body _ => (.group isolated body rs, s)
    | c => (if rs.isEmpty then c else .group false [c] rs, s)

def plain (s : Source) : Except Misplaced (Command × Source) := do
  let (p, rest) ← readSimple {} s (s.lexemes.length + 1)
  if p.words.isEmpty && p.assignments.isEmpty && p.redirects.isEmpty then throw (s.fault none)
  return (.simple s.line p.assignments p.words p.redirects, rest)

/-- Read a choice after its first word. -/
def readBranch (s : Source) : Nat → Except Misplaced (Command × Source)
  | 0 => .error (s.fault none)
  | fuel + 1 => do
    let (condition, s) ← readList s [] fuel
    let (yes, s) ← readList (← s.expect "then") [] fuel
    match s.lexemes with
    | .bare "elif" :: _ =>
      let (no, s) ← readBranch s.tail fuel
      return (.branch condition yes [no], s)
    | .bare "else" :: _ =>
      let (no, s) ← readList s.tail [] fuel
      return (.branch condition yes no, ← s.expect "fi")
    | _ => return (.branch condition yes [], ← s.expect "fi")

/-- Read the arms of a choice by patterns. -/
def readArms (s : Source) (done : List (List Word × List Command)) :
    Nat → Except Misplaced (List (List Word × List Command) × Source)
  | 0 => .error (s.fault none)
  | fuel + 1 =>
    let s := s.skipNewlines
    match s.lexemes with
    | .bare "esac" :: _ => .ok (done, s)
    | _ => do
      let s := match s.lexemes with
        | .mark "(" :: _ => s.tail
        | _ => s
      let (patterns, s) ← readPatterns s [] s.lexemes.length
      let s := s.skipNewlines
      let (body, s) ← if s.atArmEnd then pure ([], s) else readList s [] fuel
      let s := match s.lexemes with
        | .mark ";;" :: _ => s.tail
        | _ => s
      readArms s (done ++ [(patterns, body)]) fuel

def readRepeat (whileOk : Bool) (s : Source) : Nat → Except Misplaced (Command × Source)
  | 0 => .error (s.fault none)
  | fuel + 1 => do
    let (condition, s) ← readList s [] fuel
    let (body, s) ← readList (← s.expect "do") [] fuel
    return (.repeat whileOk condition body, ← s.expect "done")

end

/-- The commands of a script up to the line with the first fault. -/
structure Batch where
  commands : List Command
  fault : Option Misplaced
  deriving Repr

/-- Read commands line by line; `line` holds those of the line under way. -/
def readBatch (s : Source) (done line : List Command) : Nat → Batch
  | 0 => ⟨done ++ line, none⟩
  | fuel + 1 =>
    match s.lexemes with
    | [] => ⟨done ++ line, none⟩
    | .newline :: _ => readBatch s.tail (done ++ line) [] fuel
    | _ =>
      match readAndOr s (4 * s.lexemes.length + 8) with
      | .error f => ⟨done, some f⟩
      | .ok (c, s) =>
        match s.lexemes with
        | .mark ";" :: _ => readBatch s.tail done (line ++ [c]) fuel
        | .mark "&" :: _ => readBatch s.tail done (line ++ [c]) fuel
        | .newline :: _ => readBatch s done (line ++ [c]) fuel
        | [] => ⟨done ++ line ++ [c], none⟩
        | _ => ⟨done, some (s.fault none)⟩

/-- Read a script. If it ends within a quoted part, the last line is left out with all of it. -/
def Batch.ofText (text : String) : Batch :=
  let cs := text.toList
  let (ls, isOpen) := lexemes cs (cs.length + 1)
  let complete := if isOpen then (ls.reverse.dropWhile (· ≠ .newline)).reverse else ls
  let batch := readBatch ⟨complete, 1⟩ [] [] (ls.length + 1)
  let line := 1 + complete.count .newline
  if isOpen then { batch with fault := some (batch.fault.getD (line, .openQuote)) } else batch

end ConfigSteward.Shell
