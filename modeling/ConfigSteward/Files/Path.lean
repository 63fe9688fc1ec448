/-! # Paths as they are written

A path is read into its parts; doubled slashes and parts that are a single dot leave no trace, so
every path has one written form. Exactly two slashes at the start are kept apart from one. A part
of two dots stays: what it leads to depends on the tree. A place is the list of names that leads to
an entry from the top.
-/
namespace ConfigSteward

abbrev Place := List String

/-- The slashes at the start of a path. -/
inductive Lead where
  | none
  | one
  | two
  deriving DecidableEq, Repr

structure Path where
  lead : Lead
  parts : List String
  deriving DecidableEq, Repr

namespace Path

/-- The pieces of a text between slashes. -/
def pieces : List Char → List (List Char)
  | [] => [[]]
  | c :: r =>
    if c = '/' then [] :: pieces r
    else
      match pieces r with
      | p :: ps => (c :: p) :: ps
      | [] => [[c]]

def partsOfText (s : String) : List String :=
  ((pieces s.toList).map String.ofList).filter fun p => p ≠ "" && p ≠ "."

/-- Read a path. A slash at its end makes no difference, nor does one that is repeated on the way. -/
def ofText (s : String) : Path :=
  let lead := match s.toList with
    | '/' :: '/' :: '/' :: _ => Lead.one
    | '/' :: '/' :: _ => Lead.two
    | '/' :: _ => Lead.one
    | _ => Lead.none
  ⟨lead, partsOfText s⟩

def Lead.text : Lead → String
  | .none => ""
  | .one => "/"
  | .two => "//"

def text (p : Path) : String :=
  let body := "/".intercalate p.parts
  match p.lead with
  | .none => if p.parts.isEmpty then "." else body
  | .one => "/" ++ body
  | .two => "//" ++ body

instance : ToString Path := ⟨text⟩

/-- The last part, empty where there is none. -/
def name (p : Path) : String := p.parts.getLast?.getD ""

def parent (p : Path) : Path := ⟨p.lead, p.parts.dropLast⟩

/-- The path of an entry of the directory `p`. -/
def child (p : Path) (name : String) : Path := ⟨p.lead, p.parts ++ [name]⟩

/-- The path without parts that has the same start. -/
def isBare (p : Path) : Bool := p.parts.isEmpty

@[simp] theorem name_child (p : Path) (n : String) : (p.child n).name = n := by
  simp [child, name]

@[simp] theorem parent_child (p : Path) (n : String) : (p.child n).parent = p := by
  simp [child, parent]

theorem length_parts_parent_lt {p : Path} (h : p.isBare = false) :
    p.parent.parts.length < p.parts.length := by
  cases hp : p.parts with
  | nil => simp [isBare, hp] at h
  | cons a r => simp [parent, hp]

/-- The path that results from dropping each `..` together with the part before it. -/
def collapse : List String → List String → List String
  | done, [] => done
  | done, p :: r => if p = ".." then collapse done.dropLast r else collapse (done ++ [p]) r

/-- The place that a path starts from. -/
def start (p : Path) (here : Place) : Place :=
  match p.lead with
  | .none => here
  | _ => []

end Path

/-- The written path of a place. -/
def Place.path (p : Place) : Path := ⟨.one, p⟩

end ConfigSteward
