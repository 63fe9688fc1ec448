import ConfigSteward.Text.Utf8
import ConfigSteward.Yaml.Cursor
import ConfigSteward.Yaml.Fault
import ConfigSteward.Yaml.Scalar
import ConfigSteward.Yaml.Token

/-! # Anchors, tags and directives in the text of a document -/
namespace ConfigSteward.Yaml

/-- The characters of an anchor's name: visible ones that are no marks of a flow collection. -/
def isAnchorChar (c : Char) : Bool :=
  let n := c.toNat
  !(c = ',' || c = '[' || c = ']' || c = '\x7b' || c = '\x7d')
    && ((0x21 ≤ n && n ≤ 0x7E) || (0xA0 ≤ n && n ≤ 0xD7FF)
      || (0xE000 ≤ n && n ≤ 0xFFFD && n ≠ 0xFEFF) || 0x10000 ≤ n)

/-- Whether an anchor may be followed by a character. -/
def endsAnchor (c : Char) : Bool :=
  endsWord c || isBreak c || "?:,[]\x7b\x7d%@\x60".toList.contains c

/-- Read the name after the mark of an anchor or an alias. -/
def anchorName (c : Cursor) : Except Fault (String × Cursor) :=
  let (name, c) := c.step.span isAnchorChar
  if name.isEmpty || !endsAnchor c.peek then .error .malformed else .ok (String.ofList name, c)

def isWordChar (c : Char) : Bool :=
  ('0' ≤ c && c ≤ '9') || ('A' ≤ c && c ≤ 'Z') || ('a' ≤ c && c ≤ 'z') || c = '-' || c = '_'

/-- Whether what stands here ends a tag or a directive's part. -/
def endsTag (c : Char) : Bool := c = '\x00' || c = ' ' || isBreak c

/-- Read a handle: an exclamation mark, alone or with another one after a word. -/
def tagHandle (c : Cursor) : Except Fault (String × Cursor) :=
  if c.peek ≠ '!' then .error .malformed
  else if c.peekAt 1 = ' ' then .ok ("!", c.step)
  else
    let (word, next) := c.step.span isWordChar
    if next.peek = '!' then .ok (String.ofList ('!' :: word ++ ['!']), next.step)
    else .error .malformed

def isAddressChar (version : Version) (c : Char) : Bool :=
  isWordChar c || ";/?:@&=+$,.!~*'()[]%".toList.contains c || (version = .current && c = '#')

/-- The bytes of escapes, each a percent sign and two hexadecimal digits, and what follows them. -/
def addressBytes : List Char → Option (Bytes × List Char)
  | '%' :: a :: b :: r => do
    let n := (← hexDigitValue? a) * 16 + (← hexDigitValue? b)
    let (bytes, rest) ← addressBytes r
    return (n.toUInt8 :: bytes, rest)
  | '%' :: _ => none
  | cs => some ([], cs)

/-- Resolve the escapes in an address. -/
def addressText (cs : List Char) : Nat → Option (List Char)
  | 0 => some []
  | fuel + 1 =>
    match cs with
    | [] => some []
    | '%' :: _ => do
      let (bytes, rest) ← addressBytes cs
      return (← Text.decodeChars? bytes) ++ (← addressText rest fuel)
    | c :: r => do return c :: (← addressText r fuel)

/-- Read an address, as it stands in tags. -/
def address (version : Version) (c : Cursor) : Except Fault (String × Cursor) :=
  let (run, c) := c.span (isAddressChar version)
  match addressText run (run.length + 1) with
  | some text => if run.isEmpty then .error .malformed else .ok (String.ofList text, c)
  | none => .error .malformed

/-- Whether another exclamation mark stands in the word here. -/
def hasHandle (cs : List Char) : Bool := (cs.takeWhile fun c => !endsTag c).contains '!'

/-- Read a tag. -/
def tag (version : Version) (c : Cursor) : Except Fault (Tag × Cursor) := do
  let next := c.peekAt 1
  let (t, c) ←
    if next = '<' then
      let (suffix, c) ← address version (c.advance 2)
      if c.peek = '>' then pure (Tag.mk none suffix, c.step) else throw .malformed
    else if endsWord next || isBreak next then pure (Tag.mk none "!", c.step)
    else
      let (handle, c) ← if hasHandle (c.rest.drop 1) then tagHandle c else pure ("!", c.step)
      let (suffix, c) ← address version c
      pure (Tag.mk (some handle) suffix, c)
  if endsTag c.peek then return (t, c) else throw .malformed

/-! ## Directives -/

/-- Read a number of a version. -/
def versionNumber (c : Cursor) : Except Fault (Nat × Cursor) :=
  let (digits, c) := c.span fun ch => '0' ≤ ch && ch ≤ '9'
  if digits.isEmpty then .error .malformed
  else .ok (digits.foldl (fun n d => 10 * n + (d.toNat - 48)) 0, c)

def versionDirective (c : Cursor) : Except Fault (Token × Cursor) := do
  let (major, c) ← versionNumber c.skipSpaces
  if c.peek ≠ '.' then throw .malformed
  let (minor, c) ← versionNumber c.step
  if endsTag c.peek then return (.versionDirective major minor, c) else throw .malformed

def tagDirective (version : Version) (c : Cursor) : Except Fault (Token × Cursor) := do
  let (handle, c) ← tagHandle c.skipSpaces
  if c.peek ≠ ' ' then throw .malformed
  let (replacement, c) ← address version c.skipSpaces
  if endsTag c.peek then return (.tagDirective handle replacement, c) else throw .malformed

/-- Read a directive, up to the end of its line. -/
def directive (version : Version) (c : Cursor) : Except Fault (Token × Cursor) := do
  let (name, c) := c.step.span fun ch => isWordChar ch || ch = ':' || ch = '.'
  if name.isEmpty || !endsTag c.peek then throw .malformed
  let (token, c) ←
    if name = "YAML".toList then versionDirective c
    else if name = "TAG".toList then tagDirective version c
    else pure (Token.otherDirective, c.skip fun ch => !endsLine ch)
  return (token, ← restOfLine c)

end ConfigSteward.Yaml
