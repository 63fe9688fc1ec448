import ConfigSteward.Text.Utf8

/-! # Escapes in paths

A path is sent with percent signs and two hexadecimal digits for bytes. `unescape` resolves them,
leaving what is no escape as it is; `escape` writes an address so that only a small alphabet is
used.
-/
namespace ConfigSteward.Http

def hexDigit? (b : UInt8) : Option UInt8 :=
  if 0x30 ≤ b && b ≤ 0x39 then some (b - 0x30)
  else if 0x61 ≤ b && b ≤ 0x66 then some (b - 0x57)
  else if 0x41 ≤ b && b ≤ 0x46 then some (b - 0x37)
  else none

/-- The byte that two hexadecimal digits spell. -/
def hexByte? (a b : UInt8) : Option UInt8 := do
  return (← hexDigit? a) * 16 + (← hexDigit? b)

/-- Resolve the escapes in bytes; `37` is the percent sign. -/
def unescapeBytes : Bytes → Bytes
  | [] => []
  | [a] => [a]
  | [a, b] => [a, b]
  | 37 :: a :: b :: r =>
    match hexByte? a b with
    | some c => c :: unescapeBytes r
    | none => 37 :: unescapeBytes (a :: b :: r)
  | a :: r => a :: unescapeBytes r

def unescape (s : String) : String := Text.decodeLossy (unescapeBytes (Text.encodeString s))

/-- The bytes that stand for themselves in an address. -/
def isPlain (b : UInt8) : Bool :=
  (0x30 ≤ b && b ≤ 0x39) || (0x41 ≤ b && b ≤ 0x5A) || (0x61 ≤ b && b ≤ 0x7A)
    || "_.-~:/%#?=@[]!$&'()*+,;".toList.any fun c => c.toNat = b.toNat

def escapeByte (b : UInt8) : List Char :=
  if isPlain b then [Char.ofNat b.toNat]
  else ['%', (Nat.digitChar (b.toNat / 16)).toUpper, (Nat.digitChar (b.toNat % 16)).toUpper]

def escape (s : String) : String := String.ofList ((Text.encodeString s).flatMap escapeByte)

/-- A target as it is sent: a path and what follows its first question mark. -/
def splitTarget (target : String) : String × String :=
  let (path, query) := target.toList.span (· ≠ '?')
  (unescape (String.ofList path), String.ofList query.tail)

end ConfigSteward.Http
