import ConfigSteward.Files.Fault
import ConfigSteward.Files.Tree

/-! # Where a path leads

`walk` follows a path through a tree as file-system calls do: every part but the last must lead to a
folder, links are followed with a bound on their number, and the last part may name no entry.
`resolve` gives the place that a path stands for, whether or not anything is there: links are
replaced by what they point to and the rest is taken as written. It fails only on a link that leads
back to itself.
-/
namespace ConfigSteward

/-- The longest name of an entry, in bytes. -/
def longestName : Nat := 255

/-- The longest path that a call takes, in bytes. -/
def longestPath : Nat := 4095

/-- How many links one walk may follow. -/
def linkBudget : Nat := 40

namespace Tree

/-- Walk from a folder along names. With `follow` a link at the very end is followed too. -/
def walkFrom (t : Tree) (follow : Bool) (links : Nat) (place : Place) (names : List String) :
    Except Cause Place :=
  match names with
  | [] => .ok place
  | name :: rest =>
    if name = ".." then walkFrom t follow links place.dropLast rest
    else if longestName < name.utf8ByteSize then .error .nameTooLong
    else
      match t.get? (place ++ [name]) with
      | none => if rest = [] then .ok (place ++ [name]) else .error .noEntry
      | some .folder => walkFrom t follow links (place ++ [name]) rest
      | some (.file ..) => if rest = [] then .ok (place ++ [name]) else .error .notDirectory
      | some (.link target) =>
        if rest = [] ∧ follow = false then .ok (place ++ [name])
        else
          match links with
          | 0 => .error .tooManyLinks
          | links + 1 =>
            let goal := Path.ofText target
            walkFrom t follow links (goal.start place) (goal.parts ++ rest)
termination_by (links, names.length)

/-- The place of the entry that a call with this path acts on. -/
def walk (t : Tree) (follow : Bool) (here : Place) (p : Path) : Except Cause Place :=
  if longestPath < p.text.utf8ByteSize then .error .nameTooLong
  else walkFrom t follow linkBudget (p.start here) p.parts

/-- Resolve names one after the other. `active` holds the links that are being resolved; meeting
one of them again is a loop, and the result is then where it was met. -/
def resolveFrom (t : Tree) (fuel : Nat) (active : List Place) (place : Place)
    (names : List String) : Place × Bool :=
  match names with
  | [] => (place, true)
  | name :: rest =>
    if name = ".." then resolveFrom t fuel active place.dropLast rest
    else
      let next := place ++ [name]
      match t.get? next with
      | some (.link target) =>
        if next ∈ active then (Path.collapse next rest, false)
        else
          match fuel with
          | 0 => (Path.collapse next rest, false)
          | fuel + 1 =>
            let goal := Path.ofText target
            match resolveFrom t fuel (next :: active) (goal.start place) goal.parts with
            | (reached, true) => resolveFrom t (fuel + 1) active reached rest
            | (reached, false) => (Path.collapse reached rest, false)
      | _ => resolveFrom t fuel active next rest
termination_by (fuel, names.length)

/-- The place that a path stands for. The error is the place at which a link led back to itself. -/
def resolve (t : Tree) (here : Place) (p : Path) : Except Place Place :=
  match t.resolveFrom t.entries.length [] (p.start here) p.parts with
  | (place, true) => .ok place
  | (place, false) =>
    match t.walk true [] place.path with
    | .error .tooManyLinks => .error place
    | _ => .ok place

/-- Whether a link points to something of the given name. -/
def pointsTo (t : Tree) (name : String) : Bool :=
  t.entries.any fun e =>
    match e.2 with
    | .link target => (Path.ofText target).name = name && t.get? e.1 = some (.link target)
    | _ => false

@[simp] theorem walkFrom_nil (t : Tree) (follow : Bool) (links : Nat) (place : Place) :
    t.walkFrom follow links place [] = .ok place := by
  rw [walkFrom]

end Tree
end ConfigSteward
