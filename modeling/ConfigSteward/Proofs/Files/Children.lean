import ConfigSteward.Proofs.Files.Sound
import Mathlib.Data.List.Nodup

/-!
# The names in a folder

A folder's names are those of the entries directly below it, each of them once where no place is
entered twice.
-/
namespace ConfigSteward

namespace Tree

variable {t : Tree} {p q : Place} {name : String} {node : Node}

/-- No place is entered twice. -/
def Distinct (t : Tree) : Prop := (t.entries.map (·.1)).Nodup

theorem Distinct.remove (h : t.Distinct) (p : Place) : (t.remove p).Distinct :=
  h.sublist (List.filter_sublist.map _)

theorem Distinct.put (h : t.Distinct) (p : Place) (node : Node) : (t.put p node).Distinct := by
  refine List.nodup_cons.mpr ⟨?_, h.remove p⟩
  simp [Tree.remove]

/-- The name of an entry directly below a place. -/
def nameBelow (p q : Place) : Option String :=
  match q.getLast? with
  | some name => if q.dropLast = p then some name else none
  | none => none

private theorem nameBelow_eq_some_iff : nameBelow p q = some name ↔ q = p ++ [name] := by
  rcases List.eq_nil_or_concat q with rfl | ⟨front, last, rfl⟩
  · simp [nameBelow]
  · by_cases hfront : front = p
    · simp [nameBelow, hfront]
    · simp [nameBelow, hfront]

theorem get?_ne_none_iff (hq : q ≠ []) : t.get? q ≠ none ↔ q ∈ t.entries.map (·.1) := by
  rw [get?, if_neg hq, ne_eq, Option.map_eq_none_iff, List.find?_eq_none]
  simp

theorem mem_children : name ∈ t.children p ↔ t.get? (p ++ [name]) ≠ none := by
  have hname : name ∈ t.children p ↔ p ++ [name] ∈ t.entries.map (·.1) := by
    simp only [List.mem_map]
    refine List.mem_filterMap.trans (exists_congr fun e => and_congr_right fun _ => ?_)
    exact nameBelow_eq_some_iff
  rw [hname, get?_ne_none_iff (by simp)]

theorem Distinct.nodup_children (h : t.Distinct) (p : Place) : (t.children p).Nodup := by
  have hmap : t.children p = (t.entries.map (·.1)).filterMap (nameBelow p) := by
    rw [List.filterMap_map]
    rfl
  rw [hmap]
  refine List.Nodup.filterMap (fun q q' name hq hq' => ?_) h
  rw [nameBelow_eq_some_iff.mp hq, nameBelow_eq_some_iff.mp hq']

end Tree
end ConfigSteward
