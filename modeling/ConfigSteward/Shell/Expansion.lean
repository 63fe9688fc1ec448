import ConfigSteward.Shell.Formula
import ConfigSteward.Shell.Pattern
import ConfigSteward.Shell.State

/-! # Words after expansion

A word's pieces become fragments of text. What was not quoted is split at blanks, so one word may
become several or none.
-/
namespace ConfigSteward.Shell

/-- A part of a word after expansion. -/
inductive Fragment where
  | solid (s : String)
  /-- Not split either, but a pattern where one is wanted. -/
  | free (s : String)
  /-- Split where it has blanks. -/
  | loose (s : String)
  /-- All arguments, each as a word of its own. -/
  | separate (ss : List String)

/-- Split text at blanks while words are under construction. -/
def splitLoose (current : Option (List Char)) : List Char → List (List Char) × Option (List Char)
  | [] => ([], current)
  | c :: r =>
    if c = ' ' || c = '\t' || c = '\n' then
      let (done, last) := splitLoose none r
      (current.toList ++ done, last)
    else splitLoose (some (current.getD [] ++ [c])) r

/-- The words that fragments make; `current` is the word under way. -/
def wordsOf (current : Option (List Char)) : List Fragment → List String
  | [] => (current.map String.ofList).toList
  | .solid s :: r => wordsOf (some (current.getD [] ++ s.toList)) r
  | .free s :: r => wordsOf (some (current.getD [] ++ s.toList)) r
  | .loose s :: r =>
    let (done, current) := splitLoose current s.toList
    done.map String.ofList ++ wordsOf current r
  | .separate [] :: r => wordsOf current r
  | .separate (a :: as) :: r =>
    let first := current.getD [] ++ a.toList
    match (String.ofList first :: as).reverse with
    | last :: done => done.reverse ++ wordsOf (some last.toList) r
    | [] => wordsOf current r

/-- The value of a variable, the shell's own ones included. -/
def valueOf (x : Setting) (s : State) (name : String) : String :=
  match name with
  | "?" => toString s.status
  | "$" => ownProcess
  | "#" => toString s.args.length
  | "@" => " ".intercalate s.args
  | "*" => " ".intercalate s.args
  | "0" => x.name
  | _ =>
    match wholeNumber? name with
    | some n => s.args[n.toNat - 1]?.getD ""
    | none => s.get name

/-- Whether a variable was given a value. -/
def isSet (s : State) (name : String) : Bool :=
  match wholeNumber? name with
  | some n => n ≤ s.args.length
  | none => s.bindings.any (·.1 = name)

/-- The numbers from zero to `n`. -/
def lengths (n : Nat) : List Nat := List.range (n + 1)

/-- A text without the part at its start that a pattern describes, the longest or the shortest. -/
def withoutStart (longest : Bool) (p : Pattern) (cs : List Char) : List Char :=
  let counts := if longest then (lengths cs.length).reverse else lengths cs.length
  cs.drop ((counts.find? fun n => p.accepts (cs.take n)).getD 0)

/-- A text without the part at its end that a pattern describes, the longest or the shortest. -/
def withoutEnd (longest : Bool) (p : Pattern) (cs : List Char) : List Char :=
  let counts := if longest then lengths cs.length else (lengths cs.length).reverse
  cs.take ((counts.find? fun n => p.accepts (cs.drop n)).getD cs.length)

/-- What an operator after a variable's name makes of its value. -/
def modified (value : String) (isThere : Bool) (operator : List Char) : String :=
  let pattern (cs : List Char) := Pattern.ofText (String.ofList cs)
  match operator with
  | ':' :: '-' :: w => if value = "" then String.ofList w else value
  | ':' :: '=' :: w => if value = "" then String.ofList w else value
  | ':' :: '+' :: w => if value = "" then "" else String.ofList w
  | '-' :: w => if isThere then value else String.ofList w
  | '=' :: w => if isThere then value else String.ofList w
  | '+' :: w => if isThere then String.ofList w else ""
  | '#' :: '#' :: w => String.ofList (withoutStart true (pattern w) value.toList)
  | '#' :: w => String.ofList (withoutStart false (pattern w) value.toList)
  | '%' :: '%' :: w => String.ofList (withoutEnd true (pattern w) value.toList)
  | '%' :: w => String.ofList (withoutEnd false (pattern w) value.toList)
  | _ => value

/-- The value of what stands between the braces of a variable: a name with an operator, or a name
whose value is counted. -/
def bracedValue (x : Setting) (s : State) (body : String) : String :=
  match body.toList with
  | '#' :: c :: r => toString (valueOf x s (String.ofList (c :: r))).length
  | cs =>
    let name := match cs with
      | c :: _ => if isNameChar c then cs.takeWhile isNameChar else [c]
      | [] => []
    let value := valueOf x s (String.ofList name)
    modified value (isSet s (String.ofList name)) (cs.drop name.length)

/-- The pattern that fragments make. -/
def patternOf (fs : List Fragment) : Pattern :=
  fs.flatMap fun
    | .solid s => Pattern.literal s
    | .free s => Pattern.ofText s
    | .loose s => Pattern.ofText s
    | .separate ss => Pattern.literal (" ".intercalate ss)

/-- The text that fragments make when nothing is split. -/
def textOf (fs : List Fragment) : String :=
  String.join (fs.map fun
    | .solid s => s
    | .free s => s
    | .loose s => s
    | .separate ss => " ".intercalate ss)

def dropFinalBreaks (bytes : Bytes) : Bytes := (bytes.reverse.dropWhile (· = 10)).reverse

end ConfigSteward.Shell
