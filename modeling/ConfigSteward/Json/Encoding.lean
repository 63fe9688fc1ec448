import ConfigSteward.Text.Raw

/-! # The encoding of a JSON text

A JSON text comes in UTF-8, UTF-16 or UTF-32. A mark at the start tells which; without one, the
place of the zero bytes among the first four does, since a JSON text starts with an ASCII character.
Half of a surrogate pair is let through in each of them.
-/
namespace ConfigSteward.Json

inductive Encoding where
  | utf8
  | utf16 (bigEndian : Bool)
  | utf32 (bigEndian : Bool)
  deriving DecidableEq, Repr

namespace Encoding

/-- The encoding of a text without a mark. -/
def ofZeros : Bytes → Encoding
  | [a, b] => if a = 0 then .utf16 true else if b = 0 then .utf16 false else .utf8
  | a :: b :: c :: d :: _ =>
    if a = 0 then (if b = 0 then .utf32 true else .utf16 true)
    else if b = 0 then (if c = 0 && d = 0 then .utf32 false else .utf16 false)
    else .utf8
  | _ => .utf8

/-- The encoding of a text and what follows its mark. -/
def detect : Bytes → Encoding × Bytes
  | 0x00 :: 0x00 :: 0xFE :: 0xFF :: r => (.utf32 true, r)
  | 0xFF :: 0xFE :: 0x00 :: 0x00 :: r => (.utf32 false, r)
  | 0xFE :: 0xFF :: r => (.utf16 true, r)
  | 0xFF :: 0xFE :: r => (.utf16 false, r)
  | 0xEF :: 0xBB :: 0xBF :: r => (.utf8, r)
  | bs => (ofZeros bs, bs)

end Encoding

/-- The number that two bytes spell. -/
def pairValue (bigEndian : Bool) (a b : UInt8) : Nat :=
  if bigEndian then a.toNat * 256 + b.toNat else b.toNat * 256 + a.toNat

/-- The 16-bit units of a text, if none is cut off. -/
def units16? (bigEndian : Bool) : Bytes → Option (List Nat)
  | [] => some []
  | [_] => none
  | a :: b :: r => (units16? bigEndian r).map (pairValue bigEndian a b :: ·)

/-- The 32-bit units of a text, if none is cut off. -/
def units32? (bigEndian : Bool) : Bytes → Option (List Nat)
  | [] => some []
  | a :: b :: c :: d :: r =>
    let unit :=
      if bigEndian then pairValue true a b * 65536 + pairValue true c d
      else pairValue false c d * 65536 + pairValue false a b
    (units32? bigEndian r).map (unit :: ·)
  | _ => none

def isHighSurrogate (n : Nat) : Bool := 0xD800 ≤ n && n < 0xDC00

def isLowSurrogate (n : Nat) : Bool := 0xDC00 ≤ n && n < 0xE000

/-- The character that a pair of surrogates spells. -/
def joinSurrogates (high low : Nat) : Char :=
  Char.ofNat (0x10000 + (high - 0xD800) * 1024 + (low - 0xDC00))

/-- Half of a surrogate pair in three bytes, which no valid text holds. -/
def readHalf? : Bytes → Option (Half × Bytes)
  | 0xED :: b :: c :: r =>
    if 0xA0 ≤ b && b ≤ 0xBF && Text.isContinuation c then
      (Half.ofNumber? (0xD000 + Text.payload b * 64 + Text.payload c)).map fun h => (h, r)
    else none
  | _ => none

theorem length_readHalf? {bs : Bytes} {h : Half} {r : Bytes} (hread : readHalf? bs = some (h, r)) :
    r.length < bs.length := by
  unfold readHalf? at hread
  split at hread
  · split at hread
    · obtain ⟨_, -, hpair⟩ := Option.map_eq_some_iff.mp hread
      obtain ⟨-, rfl⟩ := Prod.mk.inj hpair
      simp only [List.length_cons]
      omega
    · cases hread
  · cases hread

/-- The code points of a text in UTF-8, if it is valid but for halves. -/
def pointsOfUtf8? : Bytes → Option (List CodePoint)
  | [] => some []
  | b :: r =>
    match Text.readChar b r with
    | (some c, _) => (pointsOfUtf8? (Text.readChar b r).2).map (.char c :: ·)
    | (none, _) =>
      match _hread : readHalf? (b :: r) with
      | some (h, rest) => (pointsOfUtf8? rest).map (.half h :: ·)
      | none => none
termination_by bs => bs.length
decreasing_by
  · have := Text.length_readChar b r
    simp only [List.length_cons]
    omega
  · exact length_readHalf? _hread

def pointsOfUnits16 : List Nat → List CodePoint
  | [] => []
  | [a] => [.ofNumber a]
  | a :: b :: r =>
    if isHighSurrogate a && isLowSurrogate b then .char (joinSurrogates a b) :: pointsOfUnits16 r
    else .ofNumber a :: pointsOfUnits16 (b :: r)

def pointsOfUnits32? (units : List Nat) : Option (List CodePoint) :=
  if units.all (· < 0x110000) then some (units.map .ofNumber) else none

/-- The code points of a JSON text. -/
def decode? (bs : Bytes) : Option (List CodePoint) :=
  match Encoding.detect bs with
  | (.utf8, r) => pointsOfUtf8? r
  | (.utf16 bigEndian, r) => (units16? bigEndian r).map pointsOfUnits16
  | (.utf32 bigEndian, r) => (units32? bigEndian r).bind pointsOfUnits32?

end ConfigSteward.Json
