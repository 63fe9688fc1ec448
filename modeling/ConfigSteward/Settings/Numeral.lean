import ConfigSteward.Number.Binary64
import ConfigSteward.Text.Blank
import ConfigSteward.Text.Digit

/-! # Numbers given as text

Whole numbers may be surrounded by white space, carry a sign, leading zeros, single underscores
between digits and a fraction of zeros. Other numbers follow the usual decimal notation and the
words for infinity and no number.
-/
namespace ConfigSteward.Numeral

/-- The value of ASCII digits. -/
def decimal (cs : List Char) : Nat := cs.foldl (fun n c => 10 * n + (c.toNat - 48)) 0

/-- A text without its underscores, if they stand one by one between other characters. -/
def dropUnderscores (cs : List Char) : Option (List Char) :=
  let doubled := (cs.zip cs.tail).any fun p => p.1 = '_' && p.2 = '_'
  if cs.contains '_' && cs.head? ≠ some '_' && cs.getLast? ≠ some '_' && !doubled then
    some (cs.filter (· ≠ '_'))
  else none

/-- What follows the zeros and underscores at the start of an unsigned numeral. One zero stays where
no other digit follows it directly. -/
def afterZeros (last : Char) : List Char → Option (List Char)
  | [] => some [last]
  | c :: r =>
    if c = '0' || c = '_' then afterZeros c r
    else if '1' ≤ c && c ≤ '9' then some (c :: r)
    else if c = '.' then some (last :: c :: r)
    else none

def dropLeadingZeros : List Char → Option (List Char)
  | '0' :: r => afterZeros '0' r
  | c :: r => if ('1' ≤ c && c ≤ '9') || c = '-' then some (c :: r) else none
  | [] => none

/-- A numeral without a fraction that is all zeros. -/
def dropZeroFraction (cs : List Char) : List Char :=
  let whole := cs.takeWhile (· ≠ '.')
  match cs.dropWhile (· ≠ '.') with
  | '.' :: fraction =>
    if !fraction.isEmpty && fraction.all (· = '0') then whole else cs
  | _ => cs

/-- Digits without a zero in front, unless it is the only one. -/
def isPlainDigits (cs : List Char) : Bool :=
  !cs.isEmpty && cs.all Text.isAsciiDigit && (cs.length = 1 || cs.head? ≠ some '0')

def readPlainInt : List Char → Option Int
  | '-' :: r => if isPlainDigits r then some (-(decimal r : Int)) else none
  | cs => if isPlainDigits cs then some (decimal cs) else none

/-- A whole number. -/
def readInt (cs : List Char) : Option Int := do
  let cs := Text.trimBoth Text.isWhiteSpace cs
  let cs := match cs with
    | '+' :: r => r
    | cs => cs
  let cs := dropZeroFraction (← dropLeadingZeros cs)
  readPlainInt ((dropUnderscores cs).getD cs)

/-- An exponent: a sign and at least one digit. -/
def readExponent : List Char → Option Int
  | [] => some 0
  | e :: r =>
    if e = 'e' || e = 'E' then
      let (negative, digits) := match r with
        | '-' :: r => (true, r)
        | '+' :: r => (false, r)
        | r => (false, r)
      if !digits.isEmpty && digits.all Text.isAsciiDigit then
        some (if negative then -(decimal digits : Int) else decimal digits)
      else none
    else none

/-- Digits with an optional point and an optional exponent, at least one digit before the latter. -/
def readUnsigned (negative : Bool) (cs : List Char) : Option Binary64 := do
  let whole := cs.takeWhile Text.isAsciiDigit
  let r := cs.dropWhile Text.isAsciiDigit
  let (fraction, r) := match r with
    | '.' :: r => (r.takeWhile Text.isAsciiDigit, r.dropWhile Text.isAsciiDigit)
    | r => ([], r)
  if whole.isEmpty && fraction.isEmpty then none
  else
    let exponent ← readExponent r
    return Binary64.ofDecimal negative (decimal (whole ++ fraction)) (exponent - fraction.length)

/-- A number or one of the words for infinity and no number, in letters of either case. -/
def readPlainFloat (cs : List Char) : Option Binary64 :=
  let (negative, body) := match cs with
    | '-' :: r => (true, r)
    | '+' :: r => (false, r)
    | cs => (false, cs)
  let word := body.map Char.toLower
  if word = "inf".toList || word = "infinity".toList then some (.infinite negative)
  else if word = "nan".toList then some .nan
  else readUnsigned negative body

/-- A number with a fraction or an exponent. -/
def readFloat (cs : List Char) : Option Binary64 :=
  match readPlainFloat (Text.trimBoth Text.isWhiteSpace cs) with
  | some x => some x
  | none => (dropUnderscores cs).bind readPlainFloat

end ConfigSteward.Numeral
