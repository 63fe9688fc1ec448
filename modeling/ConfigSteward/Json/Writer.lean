import ConfigSteward.Json.Value

/-! # Writing JSON

`write` gives the text of a value without blanks. Control characters, the quote and the backslash
are escaped, and so are halves of surrogate pairs; every other character stands for itself.
-/
namespace ConfigSteward.Json

def escapeChar (c : Char) : List Char :=
  if c = '"' || c = '\\' then ['\\', c]
  else if c = '\n' then ['\\', 'n']
  else if c = '\r' then ['\\', 'r']
  else if c = '\t' then ['\\', 't']
  else if c.toNat < 0x20 then
    ['\\', 'u', '0', '0', Nat.digitChar (c.toNat / 16), Nat.digitChar (c.toNat % 16)]
  else [c]

def escapePoint : CodePoint → List Char
  | .char c => escapeChar c
  | .half h => '\\' :: 'u' :: Nat.toDigits 16 h.number

def writeRaw (t : RawText) : String :=
  String.ofList ('"' :: t.codePoints.flatMap escapePoint ++ ['"'])

def writeText (s : String) : String := writeRaw s

/-- A number in decimal without an exponent. -/
def writeNumber (mantissa exponent : Int) : String :=
  let sign := if mantissa < 0 then "-" else ""
  let digits := Nat.toDigits 10 mantissa.natAbs
  if 0 ≤ exponent then sign ++ String.ofList (digits ++ List.replicate exponent.toNat '0')
  else
    let places := (-exponent).toNat
    let padded := List.replicate (places + 1 - digits.length) '0' ++ digits
    let whole := padded.take (padded.length - places)
    let fraction := padded.drop (padded.length - places)
    sign ++ String.ofList (whole ++ '.' :: fraction)

mutual

def write : Json → String
  | null => "null"
  | bool b => if b then "true" else "false"
  | number m e => writeNumber m e
  | special word => word
  | text s => writeText s
  | broken t => writeRaw (.broken t)
  | list items => "[" ++ writeItems items ++ "]"
  | object fields => "\x7b" ++ writeFields fields ++ "\x7d"

def writeItems : List Json → String
  | [] => ""
  | [v] => write v
  | v :: vs => write v ++ "," ++ writeItems vs

def writeFields : List (String × Json) → String
  | [] => ""
  | [(key, v)] => writeText key ++ ":" ++ write v
  | (key, v) :: fs => writeText key ++ ":" ++ write v ++ "," ++ writeFields fs

end

end ConfigSteward.Json
