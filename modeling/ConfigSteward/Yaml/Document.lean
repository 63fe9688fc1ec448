import ConfigSteward.Settings.Numeral
import ConfigSteward.Settings.Value
import ConfigSteward.Text.Case
import ConfigSteward.Time.Civil
import ConfigSteward.Yaml.Node

/-! # The value of a document

`Value.ofYaml` reads a document. The keys of one mapping differ, unless entries of other mappings
are merged into it: then its own entries win over those, and of theirs the first.
-/
namespace ConfigSteward.Yaml

/-! ## Scalars -/

/-- A scalar without the underscores that group digits. -/
def ungrouped (text : String) : List Char := text.toList.filter (· ≠ '_')

/-- The sign of a number and what follows it. -/
def splitSign (cs : List Char) : Except Fault (Bool × List Char) :=
  match cs with
  | [] => .error .emptyNumber
  | c :: r => .ok (c = '-', if c = '-' || c = '+' then r else cs)

/-- The value of a digit in a base. -/
def digitIn? (base : Nat) (c : Char) : Option Nat :=
  (hexDigitValue? c).bind fun n => if n < base then some n else none

/-- The number that digits in a base spell; blanks and a sign may stand before them. -/
def integerIn (base : Nat) (cs : List Char) : Except Fault Int :=
  let trimmed := Text.trimBoth Text.isBlank cs
  let digits := dropSign trimmed
  let n? := digits.foldl (fun n c => do return (← n) * base + (← digitIn? base c)) (some 0)
  match n? with
  | some n =>
    if digits.isEmpty then .error (.notAnInteger base (String.ofList cs))
    else if base = 10 && digits.length > 4300 then .error (.tooManyDigits digits.length)
    else .ok (if trimmed.head? = some '-' then -(n : Int) else n)
  | none => .error (.notAnInteger base (String.ofList cs))

/-- The pieces of a text between colons. -/
def groups : List Char → List (List Char)
  | [] => [[]]
  | c :: r =>
    if c = ':' then [] :: groups r
    else
      match groups r with
      | g :: gs => (c :: g) :: gs
      | [] => [[c]]

/-- The number that groups in base sixty spell. -/
def sixtieths (gs : List (List Char)) : Except Fault Int :=
  gs.foldl (fun n g => do return (← n) * 60 + (← integerIn 10 g)) (.ok 0)

def unsignedInteger (version : Version) (cs : List Char) : Except Fault Int :=
  match cs with
  | ['0'] => .ok 0
  | '0' :: 'b' :: r => integerIn 2 r
  | '0' :: 'x' :: r => integerIn 16 r
  | '0' :: 'o' :: r => integerIn 8 r
  | _ =>
    if version = .older && cs.head? = some '0' then integerIn 8 cs
    else if version = .older && cs.contains ':' then sixtieths (groups cs)
    else integerIn 10 cs

def integer (version : Version) (text : String) : Except Fault Int := do
  let (negative, cs) ← splitSign (ungrouped text)
  let n ← unsignedInteger version cs
  return if negative then -n else n

def negate : Binary64 → Binary64
  | .finite negative m e => .finite (!negative) m e
  | .infinite negative => .infinite (!negative)
  | .nan => .nan

def decimalFloat (cs : List Char) : Except Fault Binary64 :=
  match Numeral.readPlainFloat (Text.trimBoth Text.isBlank cs) with
  | some x => .ok x
  | none => .error (.notAFloat (String.ofList cs))

/-- The number that groups in base sixty spell, the last one with a fraction. -/
def sixtiethsFloat (cs : List Char) : Except Fault Binary64 := do
  let whole := cs.takeWhile (· ≠ '.')
  let fraction := (cs.dropWhile (· ≠ '.')).drop 1
  let n ← sixtieths (groups whole)
  let scale := Nat.pow 10 fraction.length
  return Binary64.ofRatio false (n.toNat * scale + number fraction) scale

def float (version : Version) (text : String) : Except Fault Binary64 := do
  let (negative, cs) ← splitSign ((ungrouped text).map Char.toLower)
  let x ←
    if cs = ".inf".toList then pure (Binary64.infinite false)
    else if cs = ".nan".toList then pure Binary64.nan
    else if version = .older && cs.contains ':' then sixtiethsFloat cs
    else decimalFloat cs
  return if negative then negate x else x

def trueWords : List String := ["yes", "y", "true", "on"]

def falseWords : List String := ["no", "n", "false", "off"]

def bool (text : String) : Except Fault Bool :=
  let word := Text.lowercase text
  if trueWords.contains word then .ok true
  else if falseWords.contains word then .ok false
  else .error (.notABool word)

/-- The six bits that a character of base 64 stands for. -/
def sixBits? (c : Char) : Option Nat :=
  if 'A' ≤ c && c ≤ 'Z' then some (c.toNat - 65)
  else if 'a' ≤ c && c ≤ 'z' then some (c.toNat - 71)
  else if isDigit c then some (c.toNat + 4)
  else if c = '+' then some 62
  else if c = '/' then some 63
  else none

/-- Read base 64. `count` characters of the group under way are read and `left` holds the bits of
them that are not yet written; `pads` equals signs came last. Other characters are passed over. -/
def base64 (count left pads : Nat) : List Char → Option Bytes
  | [] => if count = 0 then some [] else none
  | c :: r =>
    if c = '=' then
      if 2 ≤ count && 4 ≤ count + pads + 1 then some []
      else base64 count left (if 2 ≤ count then pads + 1 else pads) r
    else
      match sixBits? c, count with
      | none, _ => base64 count left pads r
      | some n, 0 => base64 1 n 0 r
      | some n, 1 => (base64 2 (n % 16) 0 r).map ((left * 4 + n / 16).toUInt8 :: ·)
      | some n, 2 => (base64 3 (n % 4) 0 r).map ((left * 16 + n / 4).toUInt8 :: ·)
      | some n, _ => (base64 0 0 0 r).map ((left * 64 + n).toUInt8 :: ·)

def binary (text : String) : Except Fault Bytes :=
  match base64 0 0 0 text.toList with
  | some bytes => if text.toList.all (·.toNat < 128) then .ok bytes else .error .malformed
  | none => .error .malformed

/-! ### Dates -/

def checkDate (m : Moment) : Except Fault Unit :=
  if m.year = 0 then .error .yearZero
  else if m.month = 0 || 12 < m.month then .error .monthOutOfYear
  else if m.day = 0 || Civil.daysInMonth m.year m.month < m.day then .error .dayOutOfMonth
  else .ok ()

def checkTime (hour minute second : Nat) : Except Fault Unit :=
  if 23 < hour then .error .hourOutOfDay
  else if 59 < minute then .error .minuteOutOfHour
  else if 59 < second then .error .secondOutOfMinute
  else .ok ()

/-- The seconds by which a moment is off the zero meridian. -/
def offsetSeconds : Option (Bool × Nat × Nat) → Int
  | none => 0
  | some (west, hours, minutes) =>
    let n : Int := hours * 3600 + minutes * 60
    if west then -n else n

/-- The numbers that a date consists of: its day, and with a time of day also its second and the
millionths after it. -/
def momentParts (m : Moment) : Except Fault (List Int) := do
  checkDate m
  match m.time with
  | none => return [Civil.dayNumber m.year m.month m.day]
  | some (hour, minute, second, fraction) =>
    checkTime hour minute second
    let civil : Civil := ⟨m.year, m.month, m.day, hour, minute, second⟩
    let seconds := (civil.toSeconds : Int) - offsetSeconds m.offset
    if seconds < 0 || Civil.endOfTime ≤ seconds then throw .dateOutOfRange
    let micros := number (fraction.take 6 ++ List.replicate (6 - fraction.length) '0')
    return [Civil.dayNumber m.year m.month m.day, seconds, micros]

def timestamp (text : String) : Except Fault Value :=
  match Moment.ofChars? text.toList with
  | some m => (momentParts m).map Value.moment
  | none => .error .malformed

/-- The value of a scalar. -/
def scalarValue (version : Version) (m : Meaning) (text : String) : Except Fault Value :=
  match m with
  | .null => .ok .null
  | .bool => (bool text).map Value.bool
  | .int => (integer version text).map Value.int
  | .float => (float version text).map Value.float
  | .text => .ok (.text text)
  | .binary => (binary text).map Value.bytes
  | .timestamp => timestamp text
  | _ => .error .malformed

/-! ## Collections -/

/-- Entries of a mapping: those merged into it and all in order, the merged ones first. -/
structure Entries where
  merged : Bool
  all : List (Node × Node)

def isMergeKey : Node → Bool
  | .scalar .merge _ => true
  | _ => false

/-- The key `=` is a text when it stands for itself. -/
def plainKey : Node → Node
  | .scalar .value text => .scalar .text text
  | n => n

mutual

/-- The entries of a mapping after those that are merged into it. -/
def flatten (entries : List (Node × Node)) : Nat → Except Fault Entries
  | 0 => .error .malformed
  | fuel + 1 => do
    let merged ← mergedEntries [] (entries.filter fun e => isMergeKey e.1) fuel
    let own := (entries.filter fun e => !isMergeKey e.1).map fun e => (plainKey e.1, e.2)
    return ⟨!merged.isEmpty, merged ++ own⟩

/-- The entries that merge keys bring. A second such key is a fault once entries have been found. -/
def mergedEntries (found : List (Node × Node)) (keys : List (Node × Node)) :
    Nat → Except Fault (List (Node × Node))
  | 0 => .error .malformed
  | fuel + 1 =>
    match keys with
    | [] => .ok found
    | (_, n) :: keys =>
      if !found.isEmpty then .error .malformed
      else do
        let source ← match n with
          | .mapping _ entries => (flatten entries fuel).map (·.all)
          | .sequence _ items => mergedItems items fuel
          | .scalar .. => throw .malformed
        mergedEntries source keys fuel

/-- The entries of several mappings, those of the last one first. -/
def mergedItems (items : List Node) : Nat → Except Fault (List (Node × Node))
  | 0 => .error .malformed
  | fuel + 1 =>
    match items with
    | [] => .ok []
    | .mapping _ entries :: items => do
      let first ← flatten entries fuel
      let others ← mergedItems items fuel
      return others ++ first.all
    | _ :: _ => .error .malformed

end

/-- Whether a value can be a key: a list is one if it holds scalars only. -/
def checkKey : Value → Except Fault Unit
  | .mapping _ => .error .malformed
  | .set _ => .error .malformed
  | .list items =>
    let isDeep := fun
      | Value.mapping _ => true
      | .set _ => true
      | .list _ => true
      | _ => false
    if items.any isDeep then .error .keyTooDeep else .ok ()
  | _ => .ok ()

/-- Put an entry in place of the one with the same key, or at the end. -/
def putEntry (entries : List (Value × Value)) (k v : Value) : List (Value × Value) :=
  if entries.any fun e => e.1.same k then entries.map fun e => if e.1.same k then (e.1, v) else e
  else entries ++ [(k, v)]

mutual

/-- The value of a node. -/
def valueOf (version : Version) (n : Node) : Nat → Except Fault Value
  | 0 => .error .malformed
  | fuel + 1 =>
    match n with
    | .scalar m text => scalarValue version m text
    | .sequence .sequence items => (valuesOf version items fuel).map Value.list
    | .sequence .orderedMapping items => (singleEntries version items fuel).map Value.mapping
    | .sequence .pairs items =>
      (singleEntries version items fuel).map fun es => .list (es.map fun e => .list [e.1, e.2])
    | .mapping .mapping entries => (mappingOf version entries fuel).map Value.mapping
    | .mapping .set entries =>
      (mappingOf version entries fuel).map fun es => .set (es.map (·.1))
    | _ => .error .malformed

def valuesOf (version : Version) (items : List Node) : Nat → Except Fault (List Value)
  | 0 => .error .malformed
  | fuel + 1 =>
    match items with
    | [] => .ok []
    | n :: ns => do return (← valueOf version n fuel) :: (← valuesOf version ns fuel)

/-- The entries of a sequence of mappings with one entry each. -/
def singleEntries (version : Version) (items : List Node) :
    Nat → Except Fault (List (Value × Value))
  | 0 => .error .malformed
  | fuel + 1 =>
    match items with
    | [] => .ok []
    | .mapping _ [(k, v)] :: ns => do
      let entry := (← valueOf version k fuel, ← valueOf version v fuel)
      return entry :: (← singleEntries version ns fuel)
    | _ :: _ => .error .malformed

def mappingOf (version : Version) (entries : List (Node × Node)) :
    Nat → Except Fault (List (Value × Value))
  | 0 => .error .malformed
  | fuel + 1 => do
    let es ← flatten entries fuel
    putAll version es.merged [] es.all fuel

/-- Put entries into a mapping one after the other. Unless some are merged, keys may not repeat. -/
def putAll (version : Version) (merged : Bool) (done : List (Value × Value))
    (entries : List (Node × Node)) : Nat → Except Fault (List (Value × Value))
  | 0 => .error .malformed
  | fuel + 1 =>
    match entries with
    | [] => .ok done
    | (k, v) :: es => do
      let key ← valueOf version k fuel
      checkKey key
      let value ← valueOf version v fuel
      if !merged && done.any fun e => e.1.same key then throw .malformed
      putAll version merged (putEntry done key value) es fuel

end

end Yaml

/-- The value of a YAML document; an empty document holds nothing. -/
def Value.ofYaml (text : String) : Except Yaml.Fault Value := do
  let cs := text.toList
  let (tokens, version) ← Yaml.Token.ofText cs
  match ← Yaml.Node.ofTokens version tokens with
  | none => return .null
  | some n => Yaml.valueOf version n (8 * cs.length + 64)

end ConfigSteward
