/-! # Decimal digits of every script

Digits come in runs of ten, each run starting with the zero of its script (Unicode 14, general
category Nd). `digitValue?` gives the value of a digit and `none` for all else.
-/
namespace ConfigSteward.Text

/-- The code points of the zeros. -/
def digitZeros : List Nat := [
  48, 1632, 1776, 1984, 2406, 2534, 2662, 2790, 2918, 3046, 3174, 3302, 3430, 3558, 3664, 3792,
  3872, 4160, 4240, 6112, 6160, 6470, 6608, 6784, 6800, 6992, 7088, 7232, 7248, 42528, 43216,
  43264, 43472, 43504, 43600, 44016, 65296, 66720, 68912, 69734, 69872, 69942, 70096, 70384,
  70736, 70864, 71248, 71360, 71472, 71904, 72016, 72784, 73040, 73120, 92768, 92864, 93008,
  120782, 120792, 120802, 120812, 120822, 123200, 123632, 125264, 130032]

def digitValue? (c : Char) : Option Nat :=
  (digitZeros.find? fun start => start ≤ c.toNat && c.toNat < start + 10).map (c.toNat - ·)

def isDigit (c : Char) : Bool := (digitValue? c).isSome

/-- Digits of ASCII alone. -/
def isAsciiDigit (c : Char) : Bool := '0' ≤ c && c ≤ '9'

theorem isDigit_of_isAsciiDigit {c : Char} (h : isAsciiDigit c = true) : isDigit c = true := by
  have hc : 48 ≤ c.toNat ∧ c.toNat < 58 := by
    simp only [isAsciiDigit, Bool.and_eq_true, decide_eq_true_eq, Char.le_def,
      UInt32.le_iff_toNat_le] at h
    exact ⟨h.1, Nat.lt_succ_of_le h.2⟩
  have hz : (48 : Nat) ∈ digitZeros := List.mem_cons_self
  simp only [isDigit, digitValue?, Option.isSome_map, List.find?_isSome]
  exact ⟨48, hz, by simp [hc.1, hc.2]⟩

/-- The number that digits spell, most significant first. A character that is no digit counts as
zero, so callers pass digits only. -/
def digitsValue (cs : List Char) : Nat :=
  cs.foldl (fun n c => 10 * n + (digitValue? c).getD 0) 0

end ConfigSteward.Text
