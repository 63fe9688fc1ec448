import ConfigSteward.Yaml.Cursor
import ConfigSteward.Yaml.Fault
import ConfigSteward.Yaml.Token

/-! # Scalars in the text of a document

Plain scalars, quoted scalars and the two kinds of block scalars. Each reader starts at the first
character and gives the scalar's text and the place after it.
-/
namespace ConfigSteward.Yaml

/-! ## Plain scalars -/

/-- How many characters belong to a plain scalar before the next blank or mark. -/
def plainRun (version : Version) (flow : Bool) : List Char → Nat
  | [] => 0
  | c :: r =>
    let next := r.head?.getD '\x00'
    if c = ':' && !endsWord next then 1 + plainRun version flow r
    else if c = '?' && version = .current then 1 + plainRun version flow r
    else if endsWord c || c = ':' then 0
    else if flow && (c = ',' || c = '?' || c = '[' || c = ']' || c = '\x7b' || c = '\x7d') then 0
    else 1 + plainRun version flow r

/-- What stands between two parts of a plain scalar. -/
structure Gap where
  chars : List Char
  cursor : Cursor
  /-- Whether a line ended within it. -/
  broken : Bool

/-- Pass the breaks and blanks after a line break. The result is `none` if a document ends here. -/
def plainBreaks (c : Cursor) (breaks : List Char) : Nat → Option (List Char) × Cursor
  | 0 => (some breaks, c)
  | fuel + 1 =>
    if c.peek = ' ' then plainBreaks c.step breaks fuel
    else if isBreak c.peek then
      let (chars, c) := c.takeBreak
      if c.atDocumentMark then (none, c) else plainBreaks c (breaks ++ chars) fuel
    else (some breaks, c)

/-- One break is folded into a space; of several the first one is dropped. -/
def foldBreak (first rest : List Char) : List Char :=
  if first ≠ ['\n'] then first ++ rest else if rest.isEmpty then [' '] else rest

/-- Pass what stands between two parts of a plain scalar. -/
def plainGap (c : Cursor) : Gap :=
  let (blanks, c) := c.span (· = ' ')
  if isBreak c.peek then
    let (first, c) := c.takeBreak
    if c.atDocumentMark then ⟨[], c, true⟩
    else
      match plainBreaks c [] (c.rest.length + 1) with
      | (some breaks, c) => ⟨foldBreak first breaks, c, true⟩
      | (none, c) => ⟨[], c, true⟩
  else ⟨blanks, c, false⟩

/-- Read the parts of a plain scalar. `gap` is what stands before the next part, and the last result
tells whether a line ended right before the place after the scalar. -/
def plainParts (version : Version) (flow : Bool) (indent : Nat) (done gap : List Char) (c : Cursor)
    (broken : Bool) : Nat → List Char × Cursor × Bool
  | 0 => (done, c, broken)
  | fuel + 1 =>
    let length := if c.peek = '#' then 0 else plainRun version flow c.rest
    if length = 0 then (done, c, broken)
    else
      let done := done ++ gap ++ c.rest.take length
      let next := plainGap (c.advance length)
      if next.chars.isEmpty || next.cursor.peek = '#'
          || (!flow && next.cursor.column < indent) then
        (done, next.cursor, next.broken)
      else plainParts version flow indent done next.chars next.cursor next.broken fuel

/-! ## Quoted scalars -/

/-- The characters that a backslash and one letter stand for between double quotes. -/
def escapes : List (Char × Char) := [
  ('0', '\x00'), ('a', '\x07'), ('b', '\x08'), ('t', '\t'), ('\t', '\t'), ('n', '\n'),
  ('v', '\x0b'), ('f', '\x0c'), ('r', '\r'), ('e', '\x1b'), (' ', ' '), ('"', '"'), ('/', '/'), ('\\', '\\'),
  ('N', '\x85'), ('_', '\xa0'), ('L', '\u2028'), ('P', '\u2029')]

/-- How many hexadecimal digits follow a letter that announces a character's number. -/
def hexWidth? : Char → Option Nat
  | 'x' => some 2
  | 'u' => some 4
  | 'U' => some 8
  | _ => none

def hexDigitValue? (c : Char) : Option Nat :=
  if '0' ≤ c && c ≤ '9' then some (c.toNat - 48)
  else if 'a' ≤ c && c ≤ 'f' then some (c.toNat - 87)
  else if 'A' ≤ c && c ≤ 'F' then some (c.toNat - 55)
  else none

/-- The number that hexadecimal digits spell. -/
def hexNumber? : List Char → Option Nat :=
  fun cs => cs.foldl (fun n c => do return (← n) * 16 + (← hexDigitValue? c)) (some 0)

/-- The character with a number; half of a pair stands as U+FFFD. -/
def numberedChar (n : Nat) : Except Fault Char :=
  if n < 0x110000 then .ok (if 0xD800 ≤ n && n < 0xE000 then '\uFFFD' else Char.ofNat n)
  else .error .noCharacter

/-- Pass the breaks and blanks after a line break within quotes. -/
def quotedBreaks (c : Cursor) (breaks : List Char) : Nat → Except Fault (List Char × Cursor)
  | 0 => .error .malformed
  | fuel + 1 =>
    if c.atDocumentMark then .error .malformed
    else
      let c := c.skip fun ch => ch = ' ' || ch = '\t'
      if isBreak c.peek then
        let (chars, c) := c.takeBreak
        quotedBreaks c (breaks ++ chars) fuel
      else .ok (breaks, c)

/-- Read one escape; the cursor stands after the backslash. -/
def quotedEscape (c : Cursor) : Except Fault (List Char × Cursor) :=
  match escapes.find? (·.1 = c.peek), hexWidth? c.peek with
  | some e, _ => .ok ([e.2], c.step)
  | none, some width =>
    let digits := c.step.rest.take width
    match hexNumber? digits with
    | some n =>
      if digits.length = width then
        (numberedChar n).map fun ch => ([ch], c.advance (width + 1))
      else .error .malformed
    | none => .error .malformed
  | none, none =>
    if isBreak c.peek then quotedBreaks c.takeBreak.2 [] (c.rest.length + 1)
    else .error .malformed

/-- Whether a character within quotes stands for itself wherever it is. -/
def isOrdinary (double : Bool) (c : Char) : Bool :=
  !(c = ' ' || c = '\t' || isBreak c || c = (if double then '"' else '\'')
    || (double && c = '\\'))

/-- Read a quoted scalar after its first quote. -/
def quotedParts (double : Bool) (done : List Char) (c : Cursor) :
    Nat → Except Fault (List Char × Cursor)
  | 0 => .error .malformed
  | fuel + 1 =>
    let ch := c.peek
    if !double && ch = '\'' && c.peekAt 1 = '\'' then
      quotedParts double (done ++ ['\'']) (c.advance 2) fuel
    else if ch = (if double then '"' else '\'') then .ok (done, c.step)
    else if double && ch = '\\' then
      match quotedEscape c.step with
      | .ok (chars, c) => quotedParts double (done ++ chars) c fuel
      | .error f => .error f
    else
      let (run, next) := c.span (isOrdinary double)
      if run.isEmpty then
        let (blanks, next) := c.span fun ch => ch = ' ' || ch = '\t'
        if isBreak next.peek then
          let (first, c) := next.takeBreak
          match quotedBreaks c [] (c.rest.length + 1) with
          | .ok (breaks, c) => quotedParts double (done ++ foldBreak first breaks) c fuel
          | .error f => .error f
        else if blanks.isEmpty then .error .malformed
        else quotedParts double (done ++ blanks) next fuel
      else quotedParts double (done ++ run) next fuel

/-! ## Block scalars -/

/-- What becomes of the line breaks at the end of a block scalar. -/
inductive Chomping where
  | strip
  | clip
  | keep
  deriving DecidableEq, Repr

def chomping? : Char → Option Chomping
  | '+' => some .keep
  | '-' => some .strip
  | _ => none

def indentDigit? (c : Char) : Option Nat :=
  if '0' ≤ c && c ≤ '9' then some (c.toNat - 48) else none

/-- The marks after the one that starts a block scalar: how it ends and how far it is indented, in
either order. -/
def blockMarks (c : Cursor) : Except Fault (Chomping × Option Nat × Cursor) :=
  let (chomping, increment, c) :=
    match chomping? c.peek, indentDigit? c.peek with
    | some chomping, _ =>
      let c := c.step
      match indentDigit? c.peek with
      | some n => (chomping, some n, c.step)
      | none => (chomping, none, c)
    | none, some n =>
      let c := c.step
      match chomping? c.peek with
      | some chomping => (chomping, some n, c.step)
      | none => (.clip, some n, c)
    | none, none => (.clip, none, c)
  let ch := c.peek
  if increment = some 0 then .error .malformed
  else if ch = '\x00' || ch = ' ' || isBreak ch then .ok (chomping, increment, c)
  else .error .malformed

/-- Pass blanks and a comment up to the end of a line. -/
def restOfLine (c : Cursor) : Except Fault Cursor :=
  let c := c.skipSpaces
  let c := if c.peek = '#' then c.skip fun ch => !endsLine ch else c
  if endsLine c.peek then .ok c.takeBreak.2 else .error .malformed

/-- Pass the empty lines before a block scalar and find the deepest indentation among them. -/
def blockIndentation (c : Cursor) (breaks : List Char) (deepest : Nat) :
    Nat → List Char × Nat × Cursor
  | 0 => (breaks, deepest, c)
  | fuel + 1 =>
    if c.peek = ' ' then blockIndentation c.step breaks (max deepest c.step.column) fuel
    else if isBreak c.peek then
      let (chars, c) := c.takeBreak
      blockIndentation c (breaks ++ chars) deepest fuel
    else (breaks, deepest, c)

/-- Pass blanks up to a column. -/
def toColumn (c : Cursor) (column : Nat) : Nat → Cursor
  | 0 => c
  | fuel + 1 =>
    if c.column < column && c.peek = ' ' then toColumn c.step column fuel else c

/-- Pass empty lines and the indentation of the line after them. -/
def blockBreaks (indent : Nat) (c : Cursor) (breaks : List Char) : Nat → List Char × Cursor
  | 0 => (breaks, c)
  | fuel + 1 =>
    let c := toColumn c indent indent
    if isBreak c.peek then
      let (chars, c) := c.takeBreak
      blockBreaks indent c (breaks ++ chars) fuel
    else (breaks, c)

/-- Read the lines of a block scalar. `breaks` are the empty lines passed since the last one; the
result holds the text, the last line break, the empty lines after it and the place. -/
def blockLines (folded top : Bool) (indent : Nat) (done last breaks : List Char) (c : Cursor) :
    Nat → List Char × List Char × List Char × Cursor
  | 0 => (done, last, breaks, c)
  | fuel + 1 =>
    if c.column = indent && c.peek ≠ '\x00' then
      let startsPlain := !(c.peek = ' ' || c.peek = '\t')
      let (line, c) := c.span fun ch => !endsLine ch
      let done := done ++ breaks ++ line
      let (last, c) := c.takeBreak
      let (breaks, c) := blockBreaks indent c [] (c.rest.length + 1)
      if top && c.column = 0 && c.atDocumentMark then (done, last, breaks, c)
      else if c.column = indent && c.peek ≠ '\x00' then
        let goesOn := !(c.peek = ' ' || c.peek = '\t')
        let joint :=
          if folded && last = ['\n'] && startsPlain && goesOn then
            (if breaks.isEmpty then [' '] else [])
          else last
        blockLines folded top indent (done ++ joint) last breaks c fuel
      else (done, last, breaks, c)
    else (done, last, breaks, c)

/-- Read a block scalar after its first mark; `least` is the least indentation of its lines. -/
def blockScalar (folded : Bool) (least : Nat) (c : Cursor) : Except Fault (List Char × Cursor) := do
  let (chomping, increment, c) ← blockMarks c
  let c ← restOfLine c
  let fuel := c.rest.length + 1
  let (indent, breaks, c) := match increment with
    | none =>
      let (breaks, deepest, c) := blockIndentation c [] 0 fuel
      (max least deepest, breaks, c)
    | some n =>
      let indent := max least 1 + n - 1
      let (breaks, c) := blockBreaks indent c [] fuel
      (indent, breaks, c)
  let top := least = 0 && increment.isNone
  let (done, last, breaks, c) := blockLines folded top indent [] [] breaks c fuel
  return match chomping with
    | .strip => (done, c)
    | .clip => (done ++ last, c)
    | .keep => (done ++ last ++ breaks, c)

end ConfigSteward.Yaml
