import ConfigSteward.Text.Utf8

/-!
# What is written is read again

A character is written as a lead byte and up to three bytes that carry six bits each. Every text is
read back from what it is written as, whatever its characters. Reading and writing leave exactly those
bytes as they are that some text is written as.
-/
namespace ConfigSteward.Text

variable {v : Nat} {lead : UInt8} (rest : Bytes)

/-- A byte that carries six bits of a character. -/
def tailByte (v : Nat) : UInt8 := UInt8.ofNat (v % 64 + 128)

private theorem toNat_tailByte (v : Nat) : (tailByte v).toNat = v % 64 + 128 := by
  rw [tailByte, UInt8.toNat_ofNat']
  omega

@[simp] theorem payload_tailByte (v : Nat) : payload (tailByte v) = v % 64 := by
  rw [payload, toNat_tailByte]
  omega

private theorem isContinuation_tailByte (v : Nat) : isContinuation (tailByte v) = true := by
  simp only [isContinuation, Bool.and_eq_true, decide_eq_true_eq, UInt8.le_iff_toNat_le,
    toNat_tailByte, UInt8.reduceToNat]
  omega

private theorem allowedSecond_tailByte (h₀ : lead.toNat = 0xE0 → 32 ≤ v % 64)
    (h₁ : lead.toNat = 0xED → v % 64 < 32) (h₂ : lead.toNat = 0xF0 → 16 ≤ v % 64)
    (h₃ : lead.toNat = 0xF4 → v % 64 < 16) : allowedSecond lead (tailByte v) = true := by
  simp only [allowedSecond, isContinuation_tailByte, ← UInt8.toNat_inj, Bool.and_eq_true,
    decide_eq_true_eq, UInt8.le_iff_toNat_le, toNat_tailByte, UInt8.reduceToNat,
    apply_ite (· = true)]
  grind

private theorem readChar_one (hlead : lead.toNat = v) (h : v < 128) :
    readChar lead rest = (some (Char.ofNat v), rest) := by
  have hone : lead < 0x80 := by
    rw [UInt8.lt_iff_toNat_lt, hlead]
    exact h
  unfold readChar
  rw [if_pos hone, hlead]

private theorem readChar_two (hlead : lead.toNat = v / 64 + 192) (h : 128 ≤ v) (h' : v < 2048) :
    readChar lead (tailByte v :: rest) = (some (Char.ofNat v), rest) := by
  have hone : ¬ lead < 0x80 := by
    simp only [UInt8.lt_iff_toNat_lt, hlead, UInt8.reduceToNat]
    omega
  have htwo : (0xC2 ≤ lead && lead ≤ 0xDF) = true := by
    simp only [Bool.and_eq_true, decide_eq_true_eq, UInt8.le_iff_toNat_le, hlead, UInt8.reduceToNat]
    omega
  have hvalue : lead.toNat % 32 * 64 + payload (tailByte v) = v := by
    rw [hlead, payload_tailByte]
    omega
  unfold readChar
  simp only [if_neg hone, if_pos htwo, isContinuation_tailByte, if_true, hvalue]

private theorem readChar_three (hlead : lead.toNat = v / 4096 + 224) (h : 2048 ≤ v) (h' : v < 65536)
    (hchar : v < 0xD800 ∨ 0xDFFF < v) :
    readChar lead (tailByte (v / 64) :: tailByte v :: rest) = (some (Char.ofNat v), rest) := by
  have hone : ¬ lead < 0x80 := by
    simp only [UInt8.lt_iff_toNat_lt, hlead, UInt8.reduceToNat]
    omega
  have htwo : ¬ (0xC2 ≤ lead && lead ≤ 0xDF) = true := by
    simp only [Bool.and_eq_true, decide_eq_true_eq, UInt8.le_iff_toNat_le, hlead, UInt8.reduceToNat]
    omega
  have hthree : (0xE0 ≤ lead && lead ≤ 0xEF) = true := by
    simp only [Bool.and_eq_true, decide_eq_true_eq, UInt8.le_iff_toNat_le, hlead, UInt8.reduceToNat]
    omega
  have hsecond : allowedSecond lead (tailByte (v / 64)) = true :=
    allowedSecond_tailByte (by omega) (by omega) (by omega) (by omega)
  have hvalue : lead.toNat % 16 * 4096 + payload (tailByte (v / 64)) * 64 + payload (tailByte v)
      = v := by
    rw [hlead, payload_tailByte, payload_tailByte]
    omega
  unfold readChar
  simp only [if_neg hone, if_neg htwo, if_pos hthree, isContinuation_tailByte, hsecond, if_true,
    hvalue]

private theorem readChar_four (hlead : lead.toNat = v / 262144 + 240) (h : 65536 ≤ v)
    (h' : v < 0x110000) :
    readChar lead (tailByte (v / 4096) :: tailByte (v / 64) :: tailByte v :: rest)
      = (some (Char.ofNat v), rest) := by
  have hone : ¬ lead < 0x80 := by
    simp only [UInt8.lt_iff_toNat_lt, hlead, UInt8.reduceToNat]
    omega
  have htwo : ¬ (0xC2 ≤ lead && lead ≤ 0xDF) = true := by
    simp only [Bool.and_eq_true, decide_eq_true_eq, UInt8.le_iff_toNat_le, hlead, UInt8.reduceToNat]
    omega
  have hthree : ¬ (0xE0 ≤ lead && lead ≤ 0xEF) = true := by
    simp only [Bool.and_eq_true, decide_eq_true_eq, UInt8.le_iff_toNat_le, hlead, UInt8.reduceToNat]
    omega
  have hfour : (0xF0 ≤ lead && lead ≤ 0xF4) = true := by
    simp only [Bool.and_eq_true, decide_eq_true_eq, UInt8.le_iff_toNat_le, hlead, UInt8.reduceToNat]
    omega
  have hsecond : allowedSecond lead (tailByte (v / 4096)) = true :=
    allowedSecond_tailByte (by omega) (by omega) (by omega) (by omega)
  have hvalue : lead.toNat % 8 * 262144 + payload (tailByte (v / 4096)) * 4096
      + payload (tailByte (v / 64)) * 64 + payload (tailByte v) = v := by
    rw [hlead, payload_tailByte, payload_tailByte, payload_tailByte]
    omega
  unfold readChar
  simp only [if_neg hone, if_neg htwo, if_neg hthree, if_pos hfour, isContinuation_tailByte,
    hsecond, if_true, hvalue]

/-- What a character is written as is read as that character, whatever follows. -/
theorem readChar_utf8EncodeChar (rest : Bytes) (c : Char) : ∃ lead tail,
    String.utf8EncodeChar c = lead :: tail ∧ readChar lead (tail ++ rest) = (some c, rest) := by
  have hvalid : c.val.toNat < 0xD800 ∨ 0xDFFF < c.val.toNat ∧ c.val.toNat < 0x110000 := c.valid
  have hc : Char.ofNat c.val.toNat = c := Char.ofNat_toNat c
  have hleads {v w : Nat} (hw : w = v) (h : v < 256) : (UInt8.ofNat w).toNat = v := by
    rw [hw, UInt8.toNat_ofNat', Nat.mod_eq_of_lt h]
  unfold String.utf8EncodeChar
  extract_lets v
  split
  · next hone =>
    have hlead := hleads (rfl : v = v) (by omega)
    exact ⟨_, _, rfl, hc ▸ readChar_one rest hlead (by omega)⟩
  next hone =>
  split
  · next htwo =>
    have hlead := hleads (by omega : v / 64 % 32 + 192 = v / 64 + 192) (by omega)
    exact ⟨_, _, rfl, hc ▸ readChar_two rest hlead (by omega) (by omega)⟩
  next htwo =>
  split
  · next hthree =>
    have hlead := hleads (by omega : v / 4096 % 16 + 224 = v / 4096 + 224) (by omega)
    exact ⟨_, _, rfl, hc ▸ readChar_three rest hlead (by omega) (by omega) (by omega)⟩
  · next hthree =>
    have hlead := hleads (by omega : v / 262144 % 8 + 240 = v / 262144 + 240) (by omega)
    exact ⟨_, _, rfl, hc ▸ readChar_four rest hlead (by omega) (by omega)⟩

theorem decodeLossyChars_flatMap : ∀ cs : List Char,
    decodeLossyChars (cs.flatMap String.utf8EncodeChar) = cs
  | [] => by simp [decodeLossyChars]
  | c :: cs => by
    obtain ⟨lead, tail, htail, hread⟩ :=
      readChar_utf8EncodeChar (cs.flatMap String.utf8EncodeChar) c
    rw [List.flatMap_cons, htail, List.cons_append, decodeLossyChars, hread, Option.getD_some,
      decodeLossyChars_flatMap cs]

/-- What a text is written as is read as that text. -/
theorem decodeLossy_encodeString (s : String) : decodeLossy (encodeString s) = s := by
  rw [decodeLossy, encodeString, decodeLossyChars_flatMap, String.ofList_toList]

/-- Reading and writing again keeps exactly the bytes that some text is written as. -/
theorem encodeString_decodeLossy_iff (bs : Bytes) :
    encodeString (decodeLossy bs) = bs ↔ bs.toByteArray.IsValidUTF8 := by
  constructor
  · intro h
    refine ⟨(decodeLossy bs).toList, ?_⟩
    rw [List.utf8Encode, ← encodeString, h]
  · rintro ⟨cs, hcs⟩
    have hbs : bs = encodeString (String.ofList cs) := by
      have h := congrArg (fun b : ByteArray => b.data.toList) hcs
      simpa [encodeString, List.utf8Encode] using h
    rw [hbs, decodeLossy_encodeString]
end ConfigSteward.Text
