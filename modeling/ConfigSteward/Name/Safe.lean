/-! # Safe names

A safe name is a single file name over a small alphabet. The test looks past one line break at the
very end of a text, so a name followed by one still counts.
-/
namespace ConfigSteward.Name

/-- ASCII letters and digits, the point, the underscore and the hyphen. -/
def isSafeChar (c : Char) : Bool :=
  ('A' ≤ c && c ≤ 'Z') || ('a' ≤ c && c ≤ 'z') || ('0' ≤ c && c ≤ '9')
    || c = '.' || c = '_' || c = '-'

/-- A text without the line break that may end it. -/
def dropFinalBreak (cs : List Char) : List Char :=
  if cs.getLast? = some '\n' then cs.dropLast else cs

/-- A non-empty text over the safe alphabet, up to one line break at its end. -/
def isSafeText (cs : List Char) : Bool :=
  let body := dropFinalBreak cs
  !body.isEmpty && body.all isSafeChar

def isSafe (name : String) : Bool :=
  name ≠ "" && name ≠ "." && name ≠ ".." && isSafeText name.toList

/-- Whether a text ends in another one. -/
def endsIn (suffix name : String) : Bool := suffix.toList.isSuffixOf name.toList

/-- A text without its last characters, as many as `suffix` has. -/
def dropSuffix (suffix name : String) : String :=
  String.ofList (name.toList.take (name.toList.length - suffix.toList.length))

theorem dropFinalBreak_of_safe {cs : List Char} (h : cs.all isSafeChar = true) :
    dropFinalBreak cs = cs := by
  unfold dropFinalBreak
  split
  · next hb =>
    have hm := List.mem_of_getLast? hb
    have := List.all_eq_true.mp h _ hm
    exact absurd this (by decide)
  · rfl

theorem isSafeText_of_all {cs : List Char} (hne : cs ≠ []) (h : cs.all isSafeChar = true) :
    isSafeText cs = true := by
  simp [isSafeText, dropFinalBreak_of_safe h, hne, h]

end ConfigSteward.Name
