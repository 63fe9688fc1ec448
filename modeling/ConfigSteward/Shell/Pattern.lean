/-! # Patterns of texts

A pattern describes texts character by character; a star stands for any run of characters, a
question mark for one, and brackets for one out of a set. `Pattern.accepts` tells whether a text is
described.
-/
namespace ConfigSteward.Shell

inductive PatternPart where
  | exact (c : Char)
  | anyChar
  | anyText
  /-- One character inside the ranges, or one outside all of them. -/
  | oneOf (inside : Bool) (ranges : List (Char × Char))
  deriving DecidableEq, Repr

abbrev Pattern := List PatternPart

namespace Pattern

/-- Every end of a text, the whole text first. -/
def ends (cs : List Char) : List (List Char) :=
  match cs with
  | [] => [[]]
  | _ :: r => cs :: ends r

/-- The ranges that the characters between brackets name. -/
def rangesOf : List Char → List (Char × Char)
  | a :: '-' :: b :: r => (a, b) :: rangesOf r
  | c :: r => (c, c) :: rangesOf r
  | [] => []

/-- Read a set after its opening bracket. A bracket that closes at once belongs to the set. -/
def readSet (cs : List Char) : Option (PatternPart × List Char) :=
  let (inside, cs) := match cs with
    | '!' :: r => (false, r)
    | '^' :: r => (false, r)
    | r => (true, r)
  let (first, cs) := match cs with
    | ']' :: r => ([']'], r)
    | r => ([], r)
  match cs.dropWhile (· ≠ ']') with
  | ']' :: rest => some (.oneOf inside (rangesOf (first ++ cs.takeWhile (· ≠ ']'))), rest)
  | _ => none

/-- The pattern that a text describes. -/
def ofChars (cs : List Char) : Nat → Pattern
  | 0 => []
  | fuel + 1 =>
    match cs with
    | [] => []
    | '*' :: r => .anyText :: ofChars r fuel
    | '?' :: r => .anyChar :: ofChars r fuel
    | '\\' :: c :: r => .exact c :: ofChars r fuel
    | '[' :: r =>
      match readSet r with
      | some (part, rest) => part :: ofChars rest fuel
      | none => .exact '[' :: ofChars r fuel
    | c :: r => .exact c :: ofChars r fuel

def ofText (s : String) : Pattern := ofChars s.toList s.length

def literal (s : String) : Pattern := s.toList.map .exact

end Pattern

/-- Whether a part that stands for one character takes this one. -/
def PatternPart.takes (p : PatternPart) (c : Char) : Bool :=
  match p with
  | exact d => c = d
  | anyChar => true
  | anyText => false
  | oneOf inside ranges => (ranges.any fun r => r.1 ≤ c && c ≤ r.2) = inside

def Pattern.accepts : Pattern → List Char → Bool
  | [], cs => cs.isEmpty
  | .anyText :: ps, cs => (Pattern.ends cs).any fun rest => Pattern.accepts ps rest
  | _ :: _, [] => false
  | p :: ps, c :: cs => p.takes c && Pattern.accepts ps cs

end ConfigSteward.Shell
