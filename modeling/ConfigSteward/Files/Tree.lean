import ConfigSteward.Files.Path
import ConfigSteward.Text.Utf8
import ConfigSteward.Time.Stamp
import ConfigSteward.Number.Binary64

/-! # The tree of files

A tree holds finitely many places
with their entries; the top itself is always a folder. `Tree.get?` is the view through which the
other operations are described: `get?_put` and `get?_remove` say what each does to it.
-/
namespace ConfigSteward

/-- When a file was last written: at a known time in billionths of a second since the start of
1970, or while the program has been running. -/
inductive Changed where
  | known (nanos : Int)
  | lately
  deriving DecidableEq, Repr

inductive Node where
  | file (bytes : Bytes) (mode : Nat) (changed : Changed)
  | folder
  | link (target : String)
  deriving DecidableEq, Repr

structure Tree where
  entries : List (Place × Node)
  deriving DecidableEq

namespace Tree

def empty : Tree := ⟨[]⟩

def get? (t : Tree) (p : Place) : Option Node :=
  if p = [] then some .folder else (t.entries.find? (·.1 = p)).map (·.2)

/-- Take one entry away; entries below it stay. -/
def remove (t : Tree) (p : Place) : Tree := ⟨t.entries.filter (·.1 ≠ p)⟩

def put (t : Tree) (p : Place) (n : Node) : Tree := ⟨(p, n) :: (t.remove p).entries⟩

/-- Take an entry away together with everything below it. -/
def removeAll (t : Tree) (p : Place) : Tree := ⟨t.entries.filter fun e => !p.isPrefixOf e.1⟩

/-- The names of the entries directly below a place. -/
def children (t : Tree) (p : Place) : List String :=
  t.entries.filterMap fun e =>
    match e.1.getLast? with
    | some name => if e.1.dropLast = p then some name else none
    | none => none

def isFolder (t : Tree) (p : Place) : Bool := t.get? p = some .folder

@[simp] theorem get?_nil (t : Tree) : t.get? [] = some .folder := by simp [get?]

@[simp] theorem get?_remove (t : Tree) (p q : Place) (hq : q ≠ []) :
    (t.remove p).get? q = if q = p then none else t.get? q := by
  simp only [get?, remove, hq, if_false]
  split
  · next h =>
    subst h
    simp [List.find?_eq_none]
  · next h =>
    congr 1
    induction t.entries with
    | nil => rfl
    | cons e es ih =>
      by_cases he : e.1 = p
      · rw [List.filter_cons_of_neg (by simp [he]), ih,
          List.find?_cons_of_neg (by simpa [he] using fun h' : p = q => h h'.symm)]
      · rw [List.filter_cons_of_pos (by simp [he])]
        by_cases heq : e.1 = q
        · simp [heq]
        · rw [List.find?_cons_of_neg (by simpa using heq), ih,
            List.find?_cons_of_neg (by simpa using heq)]

@[simp] theorem get?_put (t : Tree) (p q : Place) (n : Node) (hq : q ≠ []) :
    (t.put p n).get? q = if q = p then some n else t.get? q := by
  by_cases h : q = p
  · subst h
    simp [get?, put, hq]
  · have := get?_remove t p q hq
    simp only [get?, put, hq, if_false, h] at this ⊢
    rw [← this, List.find?_cons_of_neg (by simpa using fun h' : p = q => h h'.symm)]

end Tree

namespace Changed

/-- The time given in seconds since 1970. The fraction counts in billionths, cut off below. -/
def ofSeconds (x : Binary64) : Changed :=
  let whole := x.truncate
  let fraction : Int := match x with
    | .finite negative m e =>
      let (num, den) := Binary64.ratio m e
      (Binary64.ofRatio negative (num % den * 1000000000) den).floorScaled 1
    | _ => 0
  known (whole * 1000000000 + fraction)

/-- The time in whole seconds since 1970, the fraction cut off; `none` if it is the present. -/
def wholeSeconds? : Changed → Option Int
  | known nanos => some (Binary64.ofRatio (nanos < 0) nanos.natAbs 1000000000).truncate
  | lately => none

/-- The reading of the calendar at the time; `none` if it is the present. -/
def reading? : Changed → Except Stamp.Fault (Option Civil)
  | known nanos =>
    (Stamp.ofUnixMicros
      ((Binary64.ofRatio (nanos < 0) nanos.natAbs 1000000000).roundScaled 1000000)).map some
  | lately => .ok none

end Changed
end ConfigSteward
