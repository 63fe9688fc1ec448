import ConfigSteward.Proofs.World.Replacing

/-!
# Files in the place of links

A file that is moved to a path takes the place of a link that the path ends at. Walks that pass the
link end elsewhere from then on; those that would get to their folder without it are not affected.
-/
namespace ConfigSteward

namespace Tree

variable {t t' u' : Tree} {links : Nat} {p q r g : Place} {names : List String}

/-- A walk to a folder that gets there without an entry does not depend on that entry. -/
theorem Leads.without (hg : g ≠ []) (h : (t.remove g).Leads true links p names r)
    (hr : (t.remove g).get? r = some .folder) (hsame : ∀ q, q ≠ g → t'.get? q = t.get? q) :
    t'.Leads true links p names r ∧ t'.get? r = some .folder := by
  have hset := remove_sets (t := t) hg
  have hkeep {q : Place} {node : Node} (hq : (t.remove g).get? q = some node) :
      t'.get? q = some node := by
    have hne : q ≠ g := by
      rintro rfl
      rw [hset.self] at hq
      cases hq
    rw [hsame q hne, ← hset.other hne, hq]
  refine ⟨?_, hkeep hr⟩
  induction h with
  | stop => exact .stop
  | up _ ih => exact .up (ih hr)
  | into plain found _ ih =>
    exact .into plain (skeleton_eq_folder_iff.mpr (hkeep (skeleton_eq_folder_iff.mp found))) (ih hr)
  | leaf _ found =>
    rw [skeleton_eq_folder_iff.mpr hr] at found
    cases found
  | kept _ _ hfollow => cases hfollow
  | through plain found goesOn _ ih =>
    exact .through plain (skeleton_eq_link_iff.mpr (hkeep (skeleton_eq_link_iff.mp found))) goesOn
      (ih hr)

/-- Folders are made on the way to a path in the same places whether or not a file is there. -/
theorem Dug.beside {bytes : Bytes} {mode : Nat} {changed : Changed}
    (hset : t.Sets g (some (.file bytes mode changed)) t') (hg : t.get? g = none)
    (h : Dug p names t' u') : ∃ u, Dug p names t u ∧ u.get? g = none ∧
      u.Sets g (some (.file bytes mode changed)) u' := by
  induction h with
  | still => exact ⟨t, .still, hg, hset⟩
  | @more v' front q _ hfront leads vacant ih =>
    obtain ⟨v, hdug, hvacant, hsets⟩ := ih
    have hne : q ≠ g := by
      rintro rfl
      rw [hsets.self] at vacant
      cases vacant
    have hq : q ≠ [] := ne_nil_of_leaf (skeleton_of_vacant vacant)
    have hskeleton := hsets.skeleton_eq (skeleton_of_vacant hvacant) (skeleton_of_file hsets.self)
    have hput := put_sets (t := v) hq .folder
    have hput' := put_sets (t := v') hq .folder
    refine ⟨v.put q .folder, .more hdug hfront (leads.mono (.of_eq fun r => (hskeleton r).symm))
      ((hsets.other hne).symm.trans vacant), (hput.other (Ne.symm hne)).trans hvacant, fun r => ?_⟩
    by_cases hr : r = q
    · rw [hr, hput'.self, hput.self, if_neg hne]
    · rw [hput'.other hr, hput.other hr]
      exact hsets r

end Tree

namespace World

variable {w u : World} {p : Path} {q goal place : Place} {t : Tree}

/-- The path leads to a folder also without the entry of a place. -/
def StandsWithout (u : World) (q : Place) (p : Path) : Prop :=
  Stands { u with tree := u.tree.remove q } p

/-- What no walk goes through is not needed to get anywhere. -/
theorem Stands.without (h : u.Stands p) (hq : u.tree.skeleton q = none) : u.StandsWithout q p := by
  have hset := Tree.remove_sets (t := u.tree) (Tree.ne_nil_of_leaf hq)
  have hgone := Tree.skeleton_of_vacant hset.self
  exact h.mono (v := { u with tree := u.tree.remove q }) (.of_eq (hset.skeleton_eq hq hgone)) rfl

theorem StandsWithout.of_skeleton {v : World} (h : u.StandsWithout q p) (hq : q ≠ [])
    (hskeleton : ∀ r, v.tree.skeleton r = u.tree.skeleton r) (hhere : v.here = u.here) :
    v.StandsWithout q p := by
  refine h.mono (v := { v with tree := v.tree.remove q }) (.of_eq fun r => ?_) hhere
  by_cases hr : r = q
  · rw [hr, Tree.skeleton_of_vacant (Tree.remove_sets hq).self,
      Tree.skeleton_of_vacant (Tree.remove_sets hq).self]
  · rw [Tree.skeleton_congr ((Tree.remove_sets hq).other hr),
      Tree.skeleton_congr ((Tree.remove_sets hq).other hr), hskeleton]

/-- A path whose folder is reached without an entry ends where it did, whatever takes its place. -/
theorem StandsWithout.walk (h : u.StandsWithout goal p.parent) (hu : u.Sound) (hgoal : goal ≠ [])
    (hwalk : u.tree.walk false u.here p = .ok q) (hq : u.tree.get? q ≠ some .folder)
    (hsame : ∀ r, r ≠ goal → t.get? r = u.tree.get? r) : t.walk false u.here p = .ok q := by
  obtain ⟨r, hr, hfolder⟩ := h
  obtain ⟨hparts, r', hr', -, hplain, rfl⟩ := split_of_walk hu hwalk hq
  obtain ⟨-, hwithout⟩ := Tree.walk_eq_ok_iff.mp hr
  have hthere : u.tree.Leads true linkBudget (p.parent.start u.here) p.parent.parts r :=
    (hwithout.without hgoal hfolder fun _ _ => rfl).1
  obtain rfl := hthere.unique (Tree.walk_eq_ok_iff.mp hr').2
  obtain ⟨hstill, hfolder'⟩ := hwithout.without hgoal hfolder hsame
  refine Tree.walk_eq_ok_iff.mpr ⟨(Tree.walk_eq_ok_iff.mp hwalk).1, ?_⟩
  rw [hparts]
  exact hstill.snoc hfolder' hplain

/-- A file at the end of a path lies in a folder. -/
theorem put_sound (hu : u.Sound) (hwalk : u.tree.walk false u.here p = .ok goal)
    (hgoal : u.tree.get? goal ≠ some .folder) (bytes : Bytes) (mode : Nat) (changed : Changed) :
    goal ≠ [] ∧
      World.Sound { u with tree := u.tree.put goal (.file bytes mode changed) } := by
  have hstart := Tree.get?_start hu.here p
  rcases (Tree.walk_eq_ok_iff.mp hwalk).2.ends hu.tree hstart with hfolder | ⟨hne, hparent⟩
  · exact absurd hfolder hgoal
  · have hset := Tree.put_sets (t := u.tree) hne (.file bytes mode changed)
    refine ⟨hne, hset.sound hu.tree hgoal hparent, ?_⟩
    have hhere : u.here ≠ goal := by
      rintro rfl
      exact hgoal hu.here
    exact (hset.other hhere).trans hu.here

/-- A file is found where it was put, also in the place of a link. -/
theorem StandsWithout.lands_put (h : u.StandsWithout goal p.parent) (hu : u.Sound)
    (hwalk : u.tree.walk false u.here p = .ok goal) (hgoal : u.tree.get? goal ≠ some .folder)
    (bytes : Bytes) (mode : Nat) (changed : Changed) :
    World.Lands { u with tree := u.tree.put goal (.file bytes mode changed) } p goal := by
  obtain ⟨hne, -⟩ := put_sound hu hwalk hgoal bytes mode changed
  have hset := Tree.put_sets (t := u.tree) hne (.file bytes mode changed)
  exact ⟨h.walk hu hne hwalk hgoal fun _ hq => hset.other hq, Tree.skeleton_of_file hset.self⟩

end World
end ConfigSteward
