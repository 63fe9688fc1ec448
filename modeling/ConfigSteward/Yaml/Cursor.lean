/-! # A place in a text

A cursor holds what is left of a text and counts the characters, lines and columns passed. Beyond
the end stands the character NUL, which no document holds. The mark that may stand at the very
start of a text takes no column.
-/
namespace ConfigSteward.Yaml

def isBreak (c : Char) : Bool :=
  c = '\n' || c = '\r' || c = '\x85' || c = '\u2028' || c = '\u2029'

/-- Whether a character ends a line or the text. -/
def endsLine (c : Char) : Bool := c = '\n' || c = '\x00' || c = '\r' || c = '\x85'

/-- Whether a character ends a line, the text or a word. -/
def endsWord (c : Char) : Bool := endsLine c || c = ' ' || c = '\t'

structure Cursor where
  rest : List Char
  index : Nat := 0
  line : Nat := 0
  column : Nat := 0
  deriving DecidableEq, Repr

namespace Cursor

/-- The character `n` places ahead. -/
def peekAt (c : Cursor) (n : Nat) : Char := c.rest[n]?.getD '\x00'

def peek (c : Cursor) : Char := c.peekAt 0

/-- Pass one character. The two characters of one line break count as one. -/
def step (c : Cursor) : Cursor :=
  match c.rest with
  | [] => c
  | ch :: r =>
    if isBreak ch && !(ch = '\r' && r.head? = some '\n') then ⟨r, c.index + 1, c.line + 1, 0⟩
    else ⟨r, c.index + 1, c.line, if ch = '\uFEFF' then c.column else c.column + 1⟩

def advance (c : Cursor) : Nat → Cursor
  | 0 => c
  | n + 1 => c.step.advance n

/-- The characters from here on that satisfy `p`, and the place after them. -/
def span (c : Cursor) (p : Char → Bool) : List Char × Cursor :=
  let run := c.rest.takeWhile p
  (run, c.advance run.length)

def skip (c : Cursor) (p : Char → Bool) : Cursor := (c.span p).2

def skipSpaces (c : Cursor) : Cursor := c.skip (· = ' ')

/-- Whether three characters and a word's end stand here. -/
def atMark (c : Cursor) (mark : Char) : Bool :=
  c.peek = mark && c.peekAt 1 = mark && c.peekAt 2 = mark && endsWord (c.peekAt 3)

/-- Whether a line that parts documents starts here. -/
def atDocumentMark (c : Cursor) : Bool := c.atMark '-' || c.atMark '.'

/-- Pass a line break, if there is one, and give what it reads as. -/
def takeBreak (c : Cursor) : List Char × Cursor :=
  let ch := c.peek
  if ch = '\r' && c.peekAt 1 = '\n' then (['\n'], c.advance 2)
  else if ch = '\r' || ch = '\n' || ch = '\x85' then (['\n'], c.step)
  else if isBreak ch then ([ch], c.step)
  else ([], c)

end Cursor
end ConfigSteward.Yaml
