import ConfigSteward.Text.Utf8

/-! # Texts with halves of surrogate pairs

A text that came as JSON is a list of code points, and one of them may be half of a surrogate pair,
which is no character. UTF-8 has no bytes for it, so such a text is held in memory like any other one
but cannot be written to a file.
-/
namespace ConfigSteward

/-- Half of a surrogate pair, counted from U+D800. -/
abbrev Half := Fin 0x800

namespace Half

def number (h : Half) : Nat := 0xD800 + h

/-- The half that a number stands for. -/
def ofNumber? (n : Nat) : Option Half :=
  if 0xD800 ≤ n then
    if h : n - 0xD800 < 0x800 then some ⟨n - 0xD800, h⟩ else none
  else none

@[simp] theorem ofNumber?_number (h : Half) : ofNumber? h.number = some h := by
  simp [ofNumber?, number]

end Half

inductive CodePoint where
  | char (c : Char)
  | half (h : Half)
  deriving DecidableEq, Repr

/-- The code point with a number. -/
def CodePoint.ofNumber (n : Nat) : CodePoint := ((Half.ofNumber? n).map half).getD (.char (.ofNat n))

def CodePoint.isHalf : CodePoint → Bool
  | char _ => false
  | half _ => true

/-- The character, or U+FFFD for a half. -/
def CodePoint.lossy : CodePoint → Char
  | char c => c
  | half _ => '\uFFFD'

/-- A text with a half: the characters before its first one, that half and what follows. -/
structure BrokenText where
  before : String
  half : Half
  after : List CodePoint
  deriving DecidableEq, Repr

/-- Why a broken text cannot be written: the first halves in a row and where they stand. -/
def BrokenText.fault (t : BrokenText) : String :=
  let first := t.before.length
  let more := (t.after.takeWhile CodePoint.isHalf).length
  if more = 0 then
    "'utf-8' codec can't encode character '\\u" ++ String.ofList (Nat.toDigits 16 t.half.number)
      ++ s!"' in position {first}: surrogates not allowed"
  else s!"'utf-8' codec can't encode characters in position {first}-{first + more}"
    ++ ": surrogates not allowed"

/-- A text, told by whether it is made of characters only. -/
inductive RawText where
  | whole (text : String)
  | broken (text : BrokenText)
  deriving DecidableEq, Repr

namespace RawText

instance : Coe String RawText := ⟨whole⟩

/-- The text of code points that follow the characters `done`, last first. -/
def ofCodePointsAfter (done : List Char) : List CodePoint → RawText
  | [] => whole (String.ofList done.reverse)
  | .char c :: points => ofCodePointsAfter (c :: done) points
  | .half h :: points => broken ⟨String.ofList done.reverse, h, points⟩

def ofCodePoints (points : List CodePoint) : RawText := ofCodePointsAfter [] points

def codePoints : RawText → List CodePoint
  | whole text => text.toList.map .char
  | broken text => text.before.toList.map .char ++ .half text.half :: text.after

theorem codePoints_ofCodePointsAfter (done : List Char) (points : List CodePoint) :
    (ofCodePointsAfter done points).codePoints = done.reverse.map .char ++ points := by
  induction points generalizing done with
  | nil => simp [ofCodePointsAfter, codePoints]
  | cons point points ih =>
    cases point with
    | char c => simp [ofCodePointsAfter, ih]
    | half h => simp [ofCodePointsAfter, codePoints]

@[simp] theorem codePoints_ofCodePoints (points : List CodePoint) :
    (ofCodePoints points).codePoints = points := codePoints_ofCodePointsAfter [] points

theorem ofCodePointsAfter_append (done cs : List Char) (points : List CodePoint) :
    ofCodePointsAfter done (cs.map .char ++ points) = ofCodePointsAfter (cs.reverse ++ done) points := by
  induction cs generalizing done with
  | nil => rfl
  | cons c cs ih => simp [ofCodePointsAfter, ih]

/-- A text is its code points. -/
@[simp] theorem ofCodePoints_codePoints (t : RawText) : ofCodePoints t.codePoints = t := by
  cases t with
  | whole text =>
    have h := ofCodePointsAfter_append [] text.toList []
    rw [List.append_nil, List.append_nil] at h
    simp [ofCodePoints, codePoints, h, ofCodePointsAfter]
  | broken text =>
    rw [ofCodePoints, codePoints, ofCodePointsAfter_append]
    simp [ofCodePointsAfter]

/-- The text with U+FFFD for each half. -/
def lossy (t : RawText) : String :=
  match t with
  | whole text => text
  | broken text =>
    text.before ++ String.ofList ('\uFFFD' :: text.after.map CodePoint.lossy)

/-- The bytes of a text, or what keeps it from having any. -/
def encode : RawText → Except BrokenText Bytes
  | whole text => .ok (Text.encodeString text)
  | broken text => .error text

@[simp] theorem encode_whole (text : String) : (whole text).encode = .ok (Text.encodeString text) := rfl

@[simp] theorem encode_broken (text : BrokenText) : (broken text).encode = .error text := rfl

theorem encode_eq_ok_iff {t : RawText} {bytes : Bytes} :
    t.encode = .ok bytes ↔ ∃ text, t = whole text ∧ bytes = Text.encodeString text := by
  cases t with
  | whole text => simp [eq_comm]
  | broken text => simp

end RawText
end ConfigSteward
