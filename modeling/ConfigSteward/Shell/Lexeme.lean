/-! # The shell's language

A script is read into lexemes and these into commands. `Batch.ofText` gives the commands up to the
first fault of syntax, since a shell carries out each line before it reads the next one.
-/
namespace ConfigSteward.Shell

/-- A part of a word. What is not quoted is split into several words where it has blanks. -/
inductive Piece where
  | text (s : String)
  /-- Text in quotes, in which no character means anything else. -/
  | literal (s : String)
  | variable (quoted : Bool) (name : String)
  | arithmetic (formula : String)
  | output (quoted : Bool) (script : String)
  deriving DecidableEq, Repr

abbrev Word := List Piece

inductive RedirectKind where
  /-- The descriptor becomes another one's copy. -/
  | copy
  | write
  | append
  | read
  deriving DecidableEq, Repr

inductive Lexeme where
  | word (w : Word)
  /-- A word written without quotes, which may be a word of the language. -/
  | bare (s : String)
  | mark (s : String)
  | redirect (descriptor : Nat) (kind : RedirectKind)
  | newline
  deriving DecidableEq, Repr

structure Redirect where
  descriptor : Nat
  kind : RedirectKind
  target : Word
  deriving DecidableEq, Repr

inductive Command where
  | simple (line : Nat) (assignments : List (String × Word)) (words : List Word)
      (redirects : List Redirect)
  | group (isolated : Bool) (body : List Command) (redirects : List Redirect)
  | all (first second : Command)
  | any (first second : Command)
  | not (body : Command)
  | pipe (first second : Command)
  | branch (condition yes no : List Command)
  /-- Repeat the body as long as the condition succeeds, or fails. -/
  | repeat (whileOk : Bool) (condition body : List Command)
  | each (name : String) (words : List Word) (body : List Command)
  /-- The first arm of which a pattern describes the subject. -/
  | choose (subject : Word) (arms : List (List Word × List Command))
  | define (name : String) (body : Command)
  deriving Repr

/-! ## Lexemes -/

def isBlankChar (c : Char) : Bool := c = ' ' || c = '\t'

/-- Whether a character ends a word without quotes. -/
def endsBare (c : Char) : Bool := isBlankChar c || "\n;&|<>()".toList.contains c

def isNameStart (c : Char) : Bool := c.isAlpha || c = '_'

def isNameChar (c : Char) : Bool := c.isAlphanum || c = '_'

def isName (s : String) : Bool :=
  match s.toList with
  | c :: r => isNameStart c && r.all isNameChar
  | [] => false

/-- The characters up to the bracket that closes `depth` open ones, and what follows it. -/
def upToClose (depth : Nat) : List Char → Option (List Char × List Char)
  | [] => none
  | c :: r =>
    if c = ')' then
      if depth = 0 then some ([], r)
      else (upToClose (depth - 1) r).map fun p => (c :: p.1, p.2)
    else (upToClose (if c = '(' then depth + 1 else depth) r).map fun p => (c :: p.1, p.2)

/-- The text before a character, and what follows it. -/
def upTo (stop : Char) (cs : List Char) : Option (List Char × List Char) :=
  match cs.dropWhile (· ≠ stop) with
  | _ :: r => some (cs.takeWhile (· ≠ stop), r)
  | [] => none

/-- Read what follows a dollar sign. -/
def dollar (quoted : Bool) (cs : List Char) : Option (Piece × List Char) :=
  match cs with
  | '(' :: '(' :: r => do
    let (body, r) ← upToClose 0 r
    match r with
    | ')' :: r => return (.arithmetic (String.ofList body), r)
    | _ => none
  | '(' :: r => (upToClose 0 r).map fun p => (.output quoted (String.ofList p.1), p.2)
  | '\x7b' :: r => (upTo '\x7d' r).map fun p => (.variable quoted (String.ofList p.1), p.2)
  | c :: r =>
    if isNameStart c then
      some (.variable quoted (String.ofList (cs.takeWhile isNameChar)), cs.dropWhile isNameChar)
    else if c.isDigit || "?$#@*!-".toList.contains c then
      some (.variable quoted (String.singleton c), r)
    else some (.text "$", cs)
  | [] => some (.text "$", [])

/-- Put a character before the text that comes next. -/
def addChar (c : Char) : Word → Word
  | .text s :: w => .text (String.ofList (c :: s.toList)) :: w
  | w => .text (String.singleton c) :: w

/-- Read a part in double quotes; the result holds its pieces and what follows the closing quote. -/
def doubleQuoted (cs : List Char) : Nat → Option (Word × List Char)
  | 0 => none
  | fuel + 1 =>
    match cs with
    | [] => none
    | '"' :: r => some ([.text ""], r)
    | '\\' :: c :: r =>
      if c = '\n' then doubleQuoted r fuel
      else
        (doubleQuoted r fuel).map fun p =>
          if "\"\\$\x60".toList.contains c then (addChar c p.1, p.2)
          else (addChar '\\' (addChar c p.1), p.2)
    | '$' :: r => do
      let (piece, r) ← dollar true r
      let (w, r) ← doubleQuoted r fuel
      return (piece :: w, r)
    | '\x60' :: r => do
      let (body, r) ← upTo '\x60' r
      let (w, r) ← doubleQuoted r fuel
      return (.output true (String.ofList body) :: w, r)
    | c :: r => (doubleQuoted r fuel).map fun p => (addChar c p.1, p.2)

/-- The text of a quoted part means nothing but itself. -/
def Piece.quote : Piece → Piece
  | text s => literal s
  | p => p

/-- Read a word up to its end. -/
def readWord (cs : List Char) : Nat → Option (Word × List Char)
  | 0 => none
  | fuel + 1 =>
    match cs with
    | [] => some ([], [])
    | '\'' :: r => do
      let (body, r) ← upTo '\'' r
      let (w, r) ← readWord r fuel
      return (.literal (String.ofList body) :: w, r)
    | '"' :: r => do
      let (pieces, r) ← doubleQuoted r (r.length + 1)
      let (w, r) ← readWord r fuel
      return (pieces.map Piece.quote ++ w, r)
    | '\\' :: c :: r =>
      (readWord r fuel).map fun p =>
        if c = '\n' then p else (.literal (String.singleton c) :: p.1, p.2)
    | '$' :: r => do
      let (piece, r) ← dollar false r
      let (w, r) ← readWord r fuel
      return (piece :: w, r)
    | '\x60' :: r => do
      let (body, r) ← upTo '\x60' r
      let (w, r) ← readWord r fuel
      return (.output false (String.ofList body) :: w, r)
    | c :: r =>
      if endsBare c then some ([], cs)
      else (readWord r fuel).map fun p => (addChar c p.1, p.2)

def isPlainChar (c : Char) : Bool := !endsBare c && !"'\"\\$\x60".toList.contains c

/-- What is wrong with the syntax of a script. -/
inductive GrammarFault where
  | openQuote
  | unexpectedEnd (wanted : Option String)
  | unexpected (found : String) (wanted : Option String)
  deriving DecidableEq, Repr

def GrammarFault.message : GrammarFault → String
  | openQuote => "Syntax error: Unterminated quoted string"
  | unexpectedEnd none => "Syntax error: end of file unexpected"
  | unexpectedEnd (some w) => "Syntax error: end of file unexpected (expecting \"" ++ w ++ "\")"
  | unexpected found none => "Syntax error: " ++ found ++ " unexpected"
  | unexpected found (some w) =>
    "Syntax error: " ++ found ++ " unexpected (expecting \"" ++ w ++ "\")"

/-- A redirection's mark at the front, for a descriptor if one is written before it. -/
def redirectMark (descriptor : Option Nat) : List Char → Option (Lexeme × List Char)
  | '>' :: '&' :: r => some (.redirect (descriptor.getD 1) .copy, r)
  | '>' :: '>' :: r => some (.redirect (descriptor.getD 1) .append, r)
  | '>' :: '|' :: r => some (.redirect (descriptor.getD 1) .write, r)
  | '>' :: r => some (.redirect (descriptor.getD 1) .write, r)
  | '<' :: '&' :: r => some (.redirect (descriptor.getD 0) .copy, r)
  | '<' :: r => some (.redirect (descriptor.getD 0) .read, r)
  | _ => none

/-- A mark of the language at the front. -/
def languageMark : List Char → Option (Lexeme × List Char)
  | '&' :: '&' :: r => some (.mark "&&", r)
  | '|' :: '|' :: r => some (.mark "||", r)
  | ';' :: ';' :: r => some (.mark ";;", r)
  | '&' :: r => some (.mark "&", r)
  | '|' :: r => some (.mark "|", r)
  | ';' :: r => some (.mark ";", r)
  | '(' :: r => some (.mark "(", r)
  | ')' :: r => some (.mark ")", r)
  | '\n' :: r => some (.newline, r)
  | _ => none

/-- A mark at the front, where a descriptor may stand before one of redirection. -/
def markAt (cs : List Char) : Option (Lexeme × List Char) :=
  match cs with
  | c :: r =>
    if c.isDigit then redirectMark (some (c.toNat - 48)) r
    else
      match languageMark cs with
      | some m => some m
      | none => redirectMark none cs
  | [] => none

/-- The lexemes of a script, and whether it ends within a quoted part. -/
def lexemes (cs : List Char) : Nat → List Lexeme × Bool
  | 0 => ([], true)
  | fuel + 1 =>
    match cs with
    | [] => ([], false)
    | c :: r =>
      if isBlankChar c then lexemes r fuel
      else if c = '\\' && r.head? = some '\n' then lexemes (r.drop 1) fuel
      else if c = '#' then lexemes (r.dropWhile (· ≠ '\n')) fuel
      else
        match markAt cs with
        | some (l, r) =>
          let (ls, isOpen) := lexemes r fuel
          (l :: ls, isOpen)
        | none =>
          match readWord cs (cs.length + 1) with
          | none => ([], true)
          | some (w, rest) =>
            let written := cs.take (cs.length - rest.length)
            let l := if written.all isPlainChar then Lexeme.bare (String.ofList written)
              else .word w
            let (ls, isOpen) := lexemes rest fuel
            (l :: ls, isOpen)

/-! ## Commands -/

/-- The lexemes that are left and the number of the line. -/
structure Source where
  lexemes : List Lexeme
  line : Nat

/-- What is wrong in which line. -/
abbrev Misplaced := Nat × GrammarFault

def Source.tail (s : Source) : Source :=
  match s.lexemes with
  | .newline :: r => ⟨r, s.line + 1⟩
  | _ :: r => ⟨r, s.line⟩
  | [] => s

def Source.skipNewlines (s : Source) : Source :=
  let passed := s.lexemes.takeWhile (· = .newline)
  ⟨s.lexemes.drop passed.length, s.line + passed.length⟩

def Lexeme.shown : Lexeme → String
  | .word _ => "word"
  | .bare s => "\"" ++ s ++ "\""
  | .mark s => "\"" ++ s ++ "\""
  | .redirect .. => "redirection"
  | .newline => "newline"

/-- What is wrong where a source stands. -/
def Source.fault (s : Source) (wanted : Option String) : Misplaced :=
  match s.lexemes with
  | l :: _ => (s.line, .unexpected l.shown wanted)
  | [] => (s.line, .unexpectedEnd wanted)

/-- Pass a word or a mark of the language. -/
def Source.expect (s : Source) (word : String) : Except Misplaced Source :=
  let s := s.skipNewlines
  let isHere : Bool := match s.lexemes with
    | .bare w :: _ => w = word
    | .mark w :: _ => w = word
    | _ => false
  if isHere then .ok s.tail else .error (s.fault (some word))

end ConfigSteward.Shell
