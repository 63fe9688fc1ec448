import ConfigSteward.Yaml.Marker

/-! # The tokens of a document

Tokens are found from left to right. Indentation opens and closes block collections. A token that
may turn out to start a key gets a slot before it; the colon after the key fills the slot. A slot
that is never filled stands for nothing.
-/
namespace ConfigSteward.Yaml

/-- A token that may start a key, on one of the levels of flow collections. -/
structure KeySlot where
  level : Nat
  /-- The index of its slot among the tokens. -/
  slot : Nat
  /-- The key has to be one, since it stands where the entries of a block mapping start. -/
  required : Bool
  index : Nat
  line : Nat
  column : Nat
  deriving DecidableEq, Repr

/-- How far the tokens are found. -/
structure Scanner where
  cursor : Cursor
  version : Version := .current
  tokens : Array Token := #[.streamStart]
  /-- The opening marks of the flow collections around, innermost first. -/
  flow : List Char := []
  /-- The column of the innermost block collection, `-1` outside of all. -/
  indent : Int := -1
  /-- The columns of those around it. -/
  indents : List Int := []
  /-- Whether a key may start here. -/
  allowKey : Bool := true
  keys : List KeySlot := []
  deriving Repr

namespace Scanner

def inFlow (s : Scanner) : Bool := !s.flow.isEmpty

def level (s : Scanner) : Nat := s.flow.length

def push (s : Scanner) (t : Token) : Scanner := { s with tokens := s.tokens.push t }

def moveTo (s : Scanner) (c : Cursor) : Scanner := { s with cursor := c }

/-- Pass `n` characters, which make up a token. -/
def pushMark (s : Scanner) (t : Token) (n : Nat) : Scanner :=
  (s.push t).moveTo (s.cursor.advance n)

/-- Give up the possible key on the present level. -/
def dropKey (s : Scanner) : Except Fault Scanner :=
  if s.keys.any fun k => k.level = s.level && k.required then .error .malformed
  else .ok { s with keys := s.keys.filter (·.level ≠ s.level) }

/-- Whether a key that started at `k` can no longer be one: keys end on their line and are short. -/
def isStale (s : Scanner) (k : KeySlot) : Bool :=
  k.line ≠ s.cursor.line || s.cursor.index - k.index > 1024

def dropStaleKeys (s : Scanner) : Except Fault Scanner :=
  if s.keys.any fun k => s.isStale k && k.required then .error .malformed
  else .ok { s with keys := s.keys.filter fun k => !s.isStale k }

/-- Keep a slot for a key that may start here. -/
def keepSlot (s : Scanner) : Except Fault Scanner :=
  if s.allowKey then do
    let s ← s.dropKey
    let c := s.cursor
    let key : KeySlot :=
      ⟨s.level, s.tokens.size, !s.inFlow && s.indent = c.column, c.index, c.line, c.column⟩
    return { s.push .slot with keys := key :: s.keys }
  else .ok s

/-- Close the block collections that are indented further than `column`. -/
def unwind (s : Scanner) (column : Int) : Scanner :=
  if s.inFlow then s
  else
    let closed := (s.indent :: s.indents).takeWhile (· > column)
    let left := (s.indent :: s.indents).dropWhile (· > column)
    { s with
      indent := left.headD (-1)
      indents := left.tail
      tokens := s.tokens ++ closed.map fun _ => Token.blockEnd }

/-- Open a block collection at a column, unless the innermost one is there. The result tells whether
one was opened. -/
def openBlock (s : Scanner) (column : Nat) : Scanner × Bool :=
  if s.indent < column then
    ({ s with indent := column, indents := s.indent :: s.indents }, true)
  else (s, false)

/-- Pass blanks, comments and line breaks. A key may start on a new line. Outside brackets a tab is
no blank, as it cannot indent. -/
def passBlanks (c : Cursor) (flow allowKey : Bool) : Nat → Cursor × Bool
  | 0 => (c, allowKey)
  | fuel + 1 =>
    let c := if c.index = 0 && c.peek = '\uFEFF' then c.step else c
    let c := c.skip fun ch => ch = ' ' || flow && ch = '\t'
    let c := if c.peek = '#' then c.skip fun ch => !endsLine ch else c
    if isBreak c.peek then passBlanks c.takeBreak.2 flow (allowKey || !flow) fuel
    else (c, allowKey)

/-! ## One token -/

/-- Read a token that may start a key. -/
def content (s : Scanner) (read : Cursor → Except Fault (Token × Cursor)) :
    Except Fault Scanner := do
  let s ← s.keepSlot
  let (t, c) ← read s.cursor
  return { (s.push t).moveTo c with allowKey := false }

def openFlow (s : Scanner) (mark : Char) (t : Token) : Except Fault Scanner := do
  let s ← s.keepSlot
  return { s.pushMark t 1 with flow := mark :: s.flow, allowKey := true }

def closeFlow (s : Scanner) (t : Token) : Except Fault Scanner := do
  let s ← s.dropKey
  return { s.pushMark t 1 with flow := s.flow.tail, allowKey := false }

def flowEntry (s : Scanner) : Except Fault Scanner := do
  let s ← s.dropKey
  return { s.pushMark .flowEntry 1 with allowKey := true }

/-- Start what may only start where a key may: an entry or a key of a block collection. -/
def startInBlock (s : Scanner) (opening : Token) : Except Fault Scanner :=
  if s.inFlow then .ok s
  else if s.allowKey then
    let (s, opened) := s.openBlock s.cursor.column
    .ok (if opened then s.push opening else s)
  else .error .malformed

def blockEntry (s : Scanner) : Except Fault Scanner := do
  let s ← (← s.startInBlock .blockSequenceStart).dropKey
  return { s.pushMark .blockEntry 1 with allowKey := true }

/-- A question mark, which starts a key of any kind. -/
def complexKey (s : Scanner) : Except Fault Scanner := do
  let s ← (← s.startInBlock .blockMappingStart).dropKey
  return { s.pushMark .key 1 with allowKey := !s.inFlow }

/-- Fill the slot of a key, and open the block mapping that starts with it. -/
def fillSlot (s : Scanner) (k : KeySlot) : Scanner :=
  let s := { s with keys := s.keys.filter (·.level ≠ s.level), allowKey := false }
  let (s, opened) := if s.inFlow then (s, false) else s.openBlock k.column
  let filling := if opened then #[Token.blockMappingStart, .key] else #[.key]
  { s with
    tokens := s.tokens.extract 0 k.slot ++ filling ++ s.tokens.extract (k.slot + 1) s.tokens.size
    keys := s.keys.map fun other =>
      if other.slot > k.slot then { other with slot := other.slot + filling.size - 1 } else other }

def value (s : Scanner) : Except Fault Scanner :=
  match s.keys.find? (·.level = s.level) with
  | some k => .ok ((s.fillSlot k).pushMark .value 1)
  | none => do
    let s ← (← s.startInBlock .blockMappingStart).dropKey
    return { s.pushMark .value 1 with allowKey := !s.inFlow }

/-- A line that parts documents. -/
def documentMark (s : Scanner) (t : Token) : Except Fault Scanner := do
  let s ← (s.unwind (-1)).dropKey
  return { s.pushMark t 3 with allowKey := false }

def readDirective (s : Scanner) : Except Fault Scanner := do
  let s ← (s.unwind (-1)).dropKey
  let (t, c) ← directive s.version s.cursor
  let version := match t with
    | .versionDirective 1 1 => .older
    | .versionDirective _ _ => .current
    | _ => s.version
  return { (s.push t).moveTo c with allowKey := false, version }

def readBlockScalar (s : Scanner) (folded : Bool) : Except Fault Scanner := do
  let s ← s.dropKey
  let (text, c) ← blockScalar folded (s.indent + 1).toNat s.cursor.step
  return { (s.push (.scalar (String.ofList text) false)).moveTo c with allowKey := true }

def readQuoted (s : Scanner) (double : Bool) : Except Fault Scanner :=
  s.content fun c => do
    let (text, c) ← quotedParts double [] c.step (c.rest.length + 1)
    return (.scalar (String.ofList text) false, c)

def readPlain (s : Scanner) : Except Fault Scanner := do
  let s ← s.keepSlot
  let (text, c, broken) := plainParts s.version s.inFlow (s.indent + 1).toNat [] [] s.cursor false
    (s.cursor.rest.length + 1)
  return { (s.push (.scalar (String.ofList text) true)).moveTo c with allowKey := broken }

/-- Whether a colon here parts a key from its value. -/
def atValue (s : Scanner) : Bool :=
  let next := s.cursor.peekAt 1
  if s.inFlow then
    if s.version = .older then true
    else if s.flow.head? = some '[' then endsWord next
    else if !s.keys.isEmpty && s.tokens.back? = some .value then endsWord next
    else true
  else endsWord next

/-- Whether a plain scalar starts here. -/
def atPlain (s : Scanner) : Bool :=
  let c := s.cursor.peek
  let next := s.cursor.peekAt 1
  let reserved := endsWord c || isBreak c || "-?:,[]\x7b\x7d#&*!|>'\"%@\x60".toList.contains c
  !reserved || (c = '-' && !endsWord next)
    || (c = ':' && s.inFlow && s.version = .current && next ≠ ' ' && next ≠ '\t')
    || (!s.inFlow && (c = '?' || c = ':') && !endsWord next)

/-- Find the token that starts here, after everything between tokens. -/
def token (s : Scanner) : Except Fault Scanner :=
  let c := s.cursor
  match c.peek with
  | '[' => s.openFlow '[' .flowSequenceStart
  | '\x7b' => s.openFlow '\x7b' .flowMappingStart
  | ']' => s.closeFlow .flowSequenceEnd
  | '\x7d' => s.closeFlow .flowMappingEnd
  | ',' => s.flowEntry
  | '*' => s.content fun c => (anchorName c).map fun r => (.alias r.1, r.2)
  | '&' => s.content fun c => (anchorName c).map fun r => (.anchor r.1, r.2)
  | '!' => s.content fun c => (tag s.version c).map fun r => (.tag r.1, r.2)
  | '\'' => s.readQuoted false
  | '"' => s.readQuoted true
  | ch =>
    if ch = '%' && c.column = 0 then s.readDirective
    else if ch = '-' && c.column = 0 && c.atMark '-' then s.documentMark .documentStart
    else if ch = '.' && c.column = 0 && c.atMark '.' then s.documentMark .documentEnd
    else if ch = '-' && endsWord (c.peekAt 1) then s.blockEntry
    else if ch = '?' && (s.inFlow || endsWord (c.peekAt 1)) then s.complexKey
    else if ch = ':' && s.atValue then s.value
    else if ch = '|' && !s.inFlow then s.readBlockScalar false
    else if ch = '>' && !s.inFlow then s.readBlockScalar true
    else if s.atPlain then s.readPlain
    else .error .malformed

/-- Pass everything up to the next token. -/
def nextPlace (s : Scanner) : Except Fault Scanner := do
  let (c, allowKey) := passBlanks s.cursor s.inFlow s.allowKey (s.cursor.rest.length + 1)
  let s ← { s with cursor := c, allowKey }.dropStaleKeys
  return s.unwind c.column

/-- Find tokens up to the end of the text; every token takes a character. -/
def all (s : Scanner) : Nat → Except Fault Scanner
  | 0 => .error .malformed
  | fuel + 1 => do
    let s ← s.nextPlace
    if s.cursor.rest.isEmpty then
      let s ← (s.unwind (-1)).dropKey
      return s.push .streamEnd
    else all (← s.token) fuel

end Scanner

/-- The characters that a document may hold. -/
def isDocumentChar (c : Char) : Bool :=
  let n := c.toNat
  n = 9 || n = 10 || n = 13 || (0x20 ≤ n && n ≤ 0x7E) || n = 0x85 || (0xA0 ≤ n && n ≤ 0xFFFD)
    || 0x10000 ≤ n

/-- The tokens of a text, and the version that it asks for. -/
def Token.ofText (cs : List Char) : Except Fault (List Token × Version) :=
  if cs.all isDocumentChar then do
    let s ← Scanner.all { cursor := ⟨cs, 0, 0, 0⟩ } (cs.length + 1)
    return (s.tokens.toList.filter (· ≠ .slot), s.version)
  else .error .malformed

end ConfigSteward.Yaml
