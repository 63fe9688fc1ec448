import ConfigSteward.Json.Encoding
import ConfigSteward.Json.Value
import ConfigSteward.Text.Digit

/-! # Reading JSON

`read` takes the code points of one value with blanks around it. A fault tells the place at which the
text goes against the grammar. Places are counted by the code points that are left, so no reader has
to carry a position along. Halves of surrogate pairs may stand in strings only, where two escapes
that make up a pair are joined. Of the fields with one key the last one counts.
-/
namespace ConfigSteward.Json

inductive ReadFault where
  /-- The text goes against the grammar where `left` code points are left. -/
  | unexpected (left : Nat)
  /-- A number has too many digits or values are nested too deeply. -/
  | tooLarge
  deriving DecidableEq, Repr

abbrev Reading (α : Type) := Except ReadFault (α × List CodePoint)

def isSpace (p : CodePoint) : Bool :=
  p = .char ' ' || p = .char '\t' || p = .char '\n' || p = .char '\r'

def skipSpace (ps : List CodePoint) : List CodePoint := ps.dropWhile isSpace

/-! ## Strings -/

/-- The character that a backslash and a letter stand for. -/
def simpleEscape? : CodePoint → Option Char
  | .char '"' => some '"'
  | .char '\\' => some '\\'
  | .char '/' => some '/'
  | .char 'b' => some '\x08'
  | .char 'f' => some '\x0c'
  | .char 'n' => some '\n'
  | .char 'r' => some '\r'
  | .char 't' => some '\t'
  | _ => none

def hexValue? : CodePoint → Option Nat
  | .char c =>
    if '0' ≤ c && c ≤ '9' then some (c.toNat - 48)
    else if 'a' ≤ c && c ≤ 'f' then some (c.toNat - 87)
    else if 'A' ≤ c && c ≤ 'F' then some (c.toNat - 55)
    else none
  | .half _ => none

/-- The number that four hexadecimal digits at the front spell. -/
def unit? : List CodePoint → Option Nat
  | a :: b :: c :: d :: _ => do
    return (((← hexValue? a) * 16 + (← hexValue? b)) * 16 + (← hexValue? c)) * 16 + (← hexValue? d)
  | _ => none

/-- Read what follows a backslash and a `u`: a code point and how many of them spell it. A second
escape is read along only if something follows it. The error is how many code points are left at the
`u` at fault. -/
def readUnicode (ps : List CodePoint) : Except Nat (CodePoint × Nat) :=
  if ps.length ≤ 4 then .error (ps.length + 1)
  else
    match unit? ps with
    | none => .error (ps.length + 1)
    | some high =>
      let second := ps.drop 6
      if isHighSurrogate high && second.length > 4 && ps[4]? = some (.char '\\')
          && ps[5]? = some (.char 'u') then
        match unit? second with
        | none => .error (second.length + 1)
        | some low =>
          if isLowSurrogate low then .ok (.char (joinSurrogates high low), 10)
          else .ok (.ofNumber high, 4)
      else .ok (.ofNumber high, 4)

/-- Whether a code point has to be escaped in a string. -/
def isControl : CodePoint → Bool
  | .char c => c.toNat < 0x20
  | .half _ => false

/-- Read a string after its opening quote, at which `start` code points were left. `done` holds those
read so far, last first. -/
def readString (start : Nat) (done ps : List CodePoint) : Reading RawText :=
  match ps with
  | [] => .error (.unexpected start)
  | p :: r =>
    if p = .char '"' then .ok (.ofCodePoints done.reverse, r)
    else if p = .char '\\' then
      match r with
      | [] => .error (.unexpected start)
      | e :: r =>
        if e = .char 'u' then
          match readUnicode r with
          | .ok (p, used) => readString start (p :: done) (r.drop used)
          | .error left => .error (.unexpected left)
        else
          match simpleEscape? e with
          | some c => readString start (.char c :: done) r
          | none => .error (.unexpected (r.length + 2))
    else if isControl p then .error (.unexpected (r.length + 1))
    else readString start (p :: done) r
termination_by ps.length

/-! ## Numbers -/

/-- More digits than this make no whole number. -/
def mostDigits : Nat := 4300

/-- The digits at the front. -/
def takeDigits : List CodePoint → List Char × List CodePoint
  | .char c :: r =>
    if Text.isAsciiDigit c then
      let (digits, rest) := takeDigits r
      (c :: digits, rest)
    else ([], .char c :: r)
  | r => ([], r)

/-- The digits of a whole part: a zero, or digits that start with another one. -/
def takeWhole (ps : List CodePoint) : Option (List Char × List CodePoint) :=
  match ps with
  | .char '0' :: r => some (['0'], r)
  | _ => if (takeDigits ps).1.isEmpty then none else some (takeDigits ps)

/-- The digits after a point. A point that no digit follows stays where it is. -/
def takeFraction (ps : List CodePoint) : List Char × List CodePoint :=
  match ps with
  | .char '.' :: r => if (takeDigits r).1.isEmpty then ([], ps) else takeDigits r
  | _ => ([], ps)

/-- An exponent. One without digits stays where it is. -/
def takeExponent (ps : List CodePoint) : Option Int × List CodePoint :=
  match ps with
  | e :: r =>
    if e = .char 'e' || e = .char 'E' then
      let (negative, r) := match r with
        | .char '-' :: r => (true, r)
        | .char '+' :: r => (false, r)
        | r => (false, r)
      let (digits, r) := takeDigits r
      let n : Int := Text.digitsValue digits
      if digits.isEmpty then (none, ps) else (some (if negative then -n else n), r)
    else (none, ps)
  | [] => (none, ps)

def readNumber (ps : List CodePoint) : Reading Json :=
  let (negative, body) := match ps with
    | .char '-' :: r => (true, r)
    | r => (false, r)
  match takeWhole body with
  | none => .error (.unexpected ps.length)
  | some (whole, r) =>
    let (fraction, r) := takeFraction r
    let (exponent, r) := takeExponent r
    if fraction.isEmpty && exponent.isNone && mostDigits < whole.length then .error .tooLarge
    else
      let n : Int := Text.digitsValue (whole ++ fraction)
      .ok (.number (if negative then -n else n) (exponent.getD 0 - fraction.length), r)

/-! ## Values -/

/-- The words that are values. -/
def words : List (String × Json) := [
  ("null", .null), ("true", .bool true), ("false", .bool false), ("NaN", .special "NaN"),
  ("Infinity", .special "Infinity"), ("-Infinity", .special "-Infinity")]

/-- A word at the front. -/
def readWord? (ps : List CodePoint) : Option (Json × List CodePoint) :=
  (words.find? fun w => (w.1.toList.map CodePoint.char).isPrefixOf ps).map fun w =>
    (w.2, ps.drop w.1.length)

/-- Values nested more deeply than this are refused. -/
def deepest : Nat := 960

mutual

/-- Read a value; `depth` levels of nesting are still allowed. -/
def readValue (depth : Nat) (ps : List CodePoint) : Nat → Reading Json
  | 0 => .error (.unexpected ps.length)
  | fuel + 1 =>
    match ps with
    | [] => .error (.unexpected 0)
    | p :: r =>
      if p = .char '"' then (readString ps.length [] r).map fun t => (.ofRaw t.1, t.2)
      else if p = .char '[' then
        match depth, skipSpace r with
        | 0, _ => .error .tooLarge
        | _, .char ']' :: r => .ok (.list [], r)
        | depth + 1, r => readItems depth [] r fuel
      else if p = .char '\x7b' then
        match depth, skipSpace r with
        | 0, _ => .error .tooLarge
        | _, .char '\x7d' :: r => .ok (.object [], r)
        | depth + 1, r => readFields depth [] r fuel
      else
        match readWord? ps with
        | some word => .ok word
        | none => readNumber ps

/-- Read the items of a list from the next one on. -/
def readItems (depth : Nat) (done : List Json) (ps : List CodePoint) : Nat → Reading Json
  | 0 => .error (.unexpected ps.length)
  | fuel + 1 =>
    match readValue depth ps fuel with
    | .error fault => .error fault
    | .ok (item, r) =>
      match skipSpace r with
      | .char ']' :: r => .ok (.list (item :: done).reverse, r)
      | .char ',' :: r => readItems depth (item :: done) (skipSpace r) fuel
      | r => .error (.unexpected r.length)

/-- Read the fields of an object from the next one on. -/
def readFields (depth : Nat) (done : List (String × Json)) (ps : List CodePoint) :
    Nat → Reading Json
  | 0 => .error (.unexpected ps.length)
  | fuel + 1 =>
    match ps with
    | .char '"' :: r =>
      match readString ps.length [] r with
      | .error fault => .error fault
      | .ok (key, r) =>
        match skipSpace r with
        | .char ':' :: r =>
          match readValue depth (skipSpace r) fuel with
          | .error fault => .error fault
          | .ok (value, r) =>
            match skipSpace r with
            | .char '\x7d' :: r => .ok (.object (setField done key.lossy value), r)
            | .char ',' :: r => readFields depth (setField done key.lossy value) (skipSpace r) fuel
            | r => .error (.unexpected r.length)
        | r => .error (.unexpected r.length)
    | r => .error (.unexpected r.length)

end

/-- Read one value with blanks around it. Every level of nesting takes a code point, so twice their
number of steps is enough. -/
def read (ps : List CodePoint) : Except ReadFault Json :=
  match readValue deepest (skipSpace ps) (2 * ps.length + 2) with
  | .error fault => .error fault
  | .ok (value, r) =>
    match skipSpace r with
    | [] => .ok value
    | r => .error (.unexpected r.length)

/-- Why bytes hold no JSON value. -/
inductive BytesFault where
  /-- The text goes against the grammar at the code point with this index. -/
  | grammar (index : Nat)
  | unreadable
  deriving DecidableEq, Repr

/-- Read one value from bytes. -/
def ofBytes (bs : Bytes) : Except BytesFault Json :=
  match decode? bs with
  | none => .error .unreadable
  | some ps =>
    match read ps with
    | .ok value => .ok value
    | .error (.unexpected left) => .error (.grammar (ps.length - left))
    | .error .tooLarge => .error .unreadable

end ConfigSteward.Json
