/-! # Text as UTF-8 bytes

`encode` writes a string, `decode?` reads valid bytes only, `decodeLossy` reads every byte list and
puts U+FFFD where no character starts. All three rest on `readChar`, which reads one character or
skips the longest start of one that the bytes hold.
-/
namespace ConfigSteward

/-- The content of a file. -/
abbrev Bytes := List UInt8

namespace Text

def encodeString (s : String) : Bytes := s.toList.flatMap String.utf8EncodeChar

/-- Bytes `0x80` to `0xBF` continue a character. -/
def isContinuation (b : UInt8) : Bool := 0x80 ≤ b && b ≤ 0xBF

/-- The six payload bits of a continuation byte. -/
def payload (b : UInt8) : Nat := b.toNat % 64

/-- The bytes allowed right after a lead byte. The four special rows rule out overlong forms,
surrogates and code points above U+10FFFF. -/
def allowedSecond (lead second : UInt8) : Bool :=
  if lead = 0xE0 then 0xA0 ≤ second && second ≤ 0xBF
  else if lead = 0xED then 0x80 ≤ second && second ≤ 0x9F
  else if lead = 0xF0 then 0x90 ≤ second && second ≤ 0xBF
  else if lead = 0xF4 then 0x80 ≤ second && second ≤ 0x8F
  else isContinuation second

/-- Read the character that starts with `lead`. `none` says that no character starts here; the
rest is then what follows the longest start of one. -/
def readChar (lead : UInt8) (rest : Bytes) : Option Char × Bytes :=
  if lead < 0x80 then (some (Char.ofNat lead.toNat), rest)
  else if 0xC2 ≤ lead && lead ≤ 0xDF then
    match rest with
    | b :: r =>
      if isContinuation b then (some (Char.ofNat (lead.toNat % 32 * 64 + payload b)), r)
      else (none, rest)
    | [] => (none, rest)
  else if 0xE0 ≤ lead && lead ≤ 0xEF then
    match rest with
    | b :: r =>
      if allowedSecond lead b then
        match r with
        | c :: r =>
          if isContinuation c then
            (some (Char.ofNat (lead.toNat % 16 * 4096 + payload b * 64 + payload c)), r)
          else (none, c :: r)
        | [] => (none, [])
      else (none, rest)
    | [] => (none, rest)
  else if 0xF0 ≤ lead && lead ≤ 0xF4 then
    match rest with
    | b :: r =>
      if allowedSecond lead b then
        match r with
        | c :: r =>
          if isContinuation c then
            match r with
            | d :: r =>
              if isContinuation d then
                (some (Char.ofNat (lead.toNat % 8 * 262144 + payload b * 4096 + payload c * 64
                  + payload d)), r)
              else (none, d :: r)
            | [] => (none, [])
          else (none, c :: r)
        | [] => (none, [])
      else (none, rest)
    | [] => (none, rest)
  else (none, rest)

theorem length_readChar (lead : UInt8) (rest : Bytes) :
    (readChar lead rest).2.length ≤ rest.length := by
  unfold readChar
  repeat' split
  all_goals simp_all <;> omega

/-- The characters that bytes spell; every maximal start of a character that goes wrong counts as
one U+FFFD. -/
def decodeLossyChars : Bytes → List Char
  | [] => []
  | b :: r =>
    (readChar b r).1.getD '\uFFFD' :: decodeLossyChars (readChar b r).2
termination_by bs => bs.length
decreasing_by
  have := length_readChar b r
  simp only [List.length_cons]
  omega

def decodeLossy (bs : Bytes) : String := String.ofList (decodeLossyChars bs)

/-- The characters that bytes spell, if they are valid throughout. -/
def decodeChars? : Bytes → Option (List Char)
  | [] => some []
  | b :: r =>
    match readChar b r with
    | (some c, _) => (decodeChars? (readChar b r).2).map (c :: ·)
    | (none, _) => none
termination_by bs => bs.length
decreasing_by
  have := length_readChar b r
  simp only [List.length_cons]
  omega

def decode? (bs : Bytes) : Option String := (decodeChars? bs).map String.ofList

end Text
end ConfigSteward
