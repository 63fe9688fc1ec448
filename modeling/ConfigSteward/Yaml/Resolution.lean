import ConfigSteward.Yaml.Token

/-! # What plain scalars stand for

A plain scalar stands for a truth value, a number, a date or a text according to its form.
`plainTag` gives the tag that the form calls for.
-/
namespace ConfigSteward.Yaml

/-- The tags that mean something to the reader of settings. -/
inductive Meaning where
  | null
  | bool
  | int
  | float
  | text
  | binary
  | timestamp
  | merge
  | value
  | sequence
  | mapping
  | set
  | orderedMapping
  | pairs
  | unknown
  deriving DecidableEq, Repr

namespace Meaning

def core : String := "tag:yaml.org,2002:"

def named : List (String × Meaning) := [
  ("null", null), ("bool", bool), ("int", int), ("float", float), ("str", text),
  ("binary", binary), ("timestamp", timestamp), ("merge", merge), ("value", value),
  ("seq", sequence), ("map", mapping), ("set", set), ("omap", orderedMapping), ("pairs", pairs)]

/-- The meaning of a full tag. -/
def ofTag (tag : String) : Meaning :=
  match named.find? fun e => core ++ e.1 = tag with
  | some e => e.2
  | none => unknown

end Meaning

def isDigit (c : Char) : Bool := '0' ≤ c && c ≤ '9'

def isDigitOrLow (c : Char) : Bool := isDigit c || c = '_'

def dropSign (cs : List Char) : List Char :=
  match cs with
  | '+' :: r => r
  | '-' :: r => r
  | _ => cs

/-- Not empty and all of one class. -/
def allOf (p : Char → Bool) (cs : List Char) : Bool := !cs.isEmpty && cs.all p

def isHexOrLow (c : Char) : Bool :=
  isDigitOrLow c || ('a' ≤ c && c ≤ 'f') || ('A' ≤ c && c ≤ 'F')

def isOctalOrLow (c : Char) : Bool := ('0' ≤ c && c ≤ '7') || c = '_'

def isBinaryOrLow (c : Char) : Bool := c = '0' || c = '1' || c = '_'

/-- Digits in groups of base sixty: after the first group each has one digit, or two of which the
first is at most five. -/
def isSixtieths (cs : List Char) : Bool :=
  match cs with
  | [] => true
  | [':', a] => isDigit a
  | ':' :: a :: b :: r =>
    if b = ':' then isDigit a && isSixtieths (b :: r)
    else '0' ≤ a && a ≤ '5' && isDigit b && isSixtieths r
  | _ => false
termination_by cs.length

def isIntForm (version : Version) (cs : List Char) : Bool :=
  let body := dropSign cs
  let isBinary := match body with
    | '0' :: 'b' :: r => allOf isBinaryOrLow r
    | _ => false
  let isHex := match body with
    | '0' :: 'x' :: r => allOf isHexOrLow r
    | _ => false
  let isRest := match version with
    | .current =>
      allOf isDigitOrLow body || (match body with
        | '0' :: 'o' :: r => allOf isOctalOrLow r
        | _ => false)
    | .older =>
      allOf isOctalOrLow body || (match body with
        | c :: r =>
          ('1' ≤ c && c ≤ '9' && (r.all isDigitOrLow
            || (isSixtieths (r.dropWhile isDigitOrLow) && !(r.all isDigitOrLow))))
        | [] => false)
  match cs with
  | c :: _ => (isDigit c || c = '+' || c = '-') && (isBinary || isHex || isRest)
  | [] => false

/-- An exponent that may be missing; its sign may be missing only if `free`. -/
def isExponent (free : Bool) (cs : List Char) : Bool :=
  match cs with
  | [] => true
  | e :: r =>
    (e = 'e' || e = 'E') && (match r with
      | '+' :: r => allOf isDigit r
      | '-' :: r => allOf isDigit r
      | r => free && allOf isDigit r)

/-- Digits with a point among them or an exponent after them. -/
def isDecimalForm (cs : List Char) : Bool :=
  match cs with
  | c :: _ =>
    let r := cs.dropWhile isDigitOrLow
    isDigit c && (match r with
      | '.' :: r => isExponent true (r.dropWhile isDigitOrLow)
      | r => !r.isEmpty && isExponent true r)
  | [] => false

/-- A point and digits after it. -/
def isFractionForm (cs : List Char) : Bool :=
  match cs with
  | '.' :: r =>
    allOf isDigitOrLow (r.takeWhile isDigitOrLow) && isExponent false (r.dropWhile isDigitOrLow)
  | _ => false

/-- Digits in groups of base sixty with a fraction. -/
def isSixtiethsFraction (cs : List Char) : Bool :=
  match cs with
  | c :: _ =>
    let groups := (cs.dropWhile isDigitOrLow).takeWhile (· ≠ '.')
    let r := (cs.dropWhile isDigitOrLow).dropWhile (· ≠ '.')
    isDigit c && !groups.isEmpty && isSixtieths groups && (match r with
      | '.' :: r => r.all isDigitOrLow
      | _ => false)
  | [] => false

def isFloatForm (version : Version) (cs : List Char) : Bool :=
  let body := dropSign cs
  let isInfinity := [".inf", ".Inf", ".INF"].any fun w => w.toList = body
  let isNan := [".nan", ".NaN", ".NAN"].any fun w => w.toList = cs
  isDecimalForm body || isInfinity || isNan || (match version with
    | .current => isFractionForm body
    | .older => isFractionForm cs || isSixtiethsFraction body)

/-! ## Dates -/

/-- A date, with the time of day and the offset from the zero meridian where they are given. -/
structure Moment where
  year : Nat
  month : Nat
  day : Nat
  /-- Hour, minute, second and the digits after the point. -/
  time : Option (Nat × Nat × Nat × List Char) := none
  /-- Whether the offset is to the west, and its hours and minutes. -/
  offset : Option (Bool × Nat × Nat) := none
  deriving DecidableEq, Repr

def number (cs : List Char) : Nat := cs.foldl (fun n c => 10 * n + (c.toNat - 48)) 0

/-- One or two digits at the front. -/
def oneOrTwo : List Char → Option (Nat × List Char)
  | a :: b :: r =>
    if isDigit a then
      if isDigit b then some (number [a, b], r) else some (number [a], b :: r)
    else none
  | [a] => if isDigit a then some (number [a], []) else none
  | [] => none

def two : List Char → Option (Nat × List Char)
  | a :: b :: r => if isDigit a && isDigit b then some (number [a, b], r) else none
  | _ => none

def expect (c : Char) : List Char → Option (List Char)
  | a :: r => if a = c then some r else none
  | [] => none

def isGap (c : Char) : Bool := c = ' ' || c = '\t'

/-- What parts the date from the time: a letter, or blanks. -/
def momentGap : List Char → Option (List Char)
  | c :: r =>
    if c = 'T' || c = 't' then some r
    else if isGap c then some (r.dropWhile isGap)
    else none
  | [] => none

def momentOffset (cs : List Char) : Option (Option (Bool × Nat × Nat)) :=
  match cs.dropWhile isGap with
  | [] => if cs.isEmpty then some none else none
  | ['Z'] => some none
  | sign :: r => do
    if sign ≠ '+' && sign ≠ '-' then none
    let (hours, r) ← oneOrTwo r
    match r with
    | [] => return some (sign = '-', hours, 0)
    | _ =>
      let (minutes, r) ← two (← expect ':' r)
      if r.isEmpty then return some (sign = '-', hours, minutes) else none

/-- Read a date. Month and day may have one digit. -/
def Moment.ofChars? (cs : List Char) : Option Moment := do
  let year := cs.take 4
  if year.length ≠ 4 || !year.all isDigit then none
  let (month, r) ← oneOrTwo (← expect '-' (cs.drop 4))
  let (day, r) ← oneOrTwo (← expect '-' r)
  if r.isEmpty then return ⟨number year, month, day, none, none⟩
  let (hour, r) ← oneOrTwo (← momentGap r)
  let (minute, r) ← two (← expect ':' r)
  let (second, r) ← two (← expect ':' r)
  let (fraction, r) := match r with
    | '.' :: r => (r.takeWhile isDigit, r.dropWhile isDigit)
    | r => ([], r)
  return ⟨number year, month, day, some (hour, minute, second, fraction), ← momentOffset r⟩

/-- Whether a plain scalar is a date: one without a time of day has two digits for month and day. -/
def isMomentForm (cs : List Char) : Bool :=
  match Moment.ofChars? cs with
  | some m => m.time.isSome || cs.length = 10
  | none => false

/-! ## All forms -/

def boolWords : Version → List String
  | .current => ["true", "True", "TRUE", "false", "False", "FALSE"]
  | .older =>
    ["y", "Y", "yes", "Yes", "YES", "n", "N", "no", "No", "NO", "true", "True", "TRUE", "false",
      "False", "FALSE", "on", "On", "ON", "off", "Off", "OFF"]

/-- The meaning that the form of a plain scalar calls for. -/
def plainMeaning (version : Version) (text : String) : Meaning :=
  let cs := text.toList
  if (boolWords version).contains text then .bool
  else if isFloatForm version cs then .float
  else if isIntForm version cs then .int
  else if text = "<<" then .merge
  else if ["", "~", "null", "Null", "NULL"].contains text then .null
  else if isMomentForm cs then .timestamp
  else if text = "=" then .value
  else .text

end ConfigSteward.Yaml
