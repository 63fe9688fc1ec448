import ConfigSteward.Proofs.World.Regular
import ConfigSteward.Proofs.World.Steady

/-!
# What operations leave alone

`Alters` bounds what an operation did: apart from the places that it touched, entries stay and only
folders are new. In a tree of files and folders every path has one place that it can lead to, and
what the path reads changes only if that place is touched.
-/
namespace ConfigSteward

namespace Path

/-- The place that a path leads to where there are no links. -/
def placeFrom (here : Place) (p : Path) : Place := collapse (p.start here) p.parts

theorem collapse_append (place : Place) (names rest : List String) :
    collapse place (names ++ rest) = collapse (collapse place names) rest := by
  induction names generalizing place with
  | nil => rfl
  | cons name names ih =>
    rw [List.cons_append, collapse, collapse]
    split
    · exact ih _
    · exact ih _

theorem placeFrom_child (here : Place) (p : Path) {name : String} (hname : name ≠ "..") :
    (p.child name).placeFrom here = p.placeFrom here ++ [name] := by
  simp only [placeFrom, child, start, collapse_append]
  rw [collapse, if_neg hname, collapse]

theorem child_parent_name {p : Path} (h : p.parts ≠ []) : p.parent.child p.name = p := by
  obtain ⟨lead, parts⟩ := p
  simp only [child, parent, name]
  rw [List.getLast?_eq_some_getLast h, Option.getD_some, List.dropLast_concat_getLast]

end Path

namespace Tree

/-- The content of the file at a place; `none` if there is none. -/
def bytesAt (t : Tree) (place : Place) : Option Bytes :=
  match t.get? place with
  | some (.file bytes _ _) => some bytes
  | _ => none

variable {t t' : Tree} {place : Place} {bytes : Bytes}

theorem bytesAt_eq_some_iff : t.bytesAt place = some bytes ↔
    ∃ mode changed, t.get? place = some (.file bytes mode changed) := by
  unfold bytesAt
  split <;> simp_all

theorem bytesAt_congr (h : t'.get? place = t.get? place) : t'.bytesAt place = t.bytesAt place := by
  rw [bytesAt, bytesAt, h]

end Tree

namespace World

variable {w v u : World} {p : Path} {place goal : Place} {bytes : Bytes}
  {touched touched' : Place → Prop}

/-- The path is written without `..`, or the folder that it names an entry of is there. -/
def Firm (w : World) (p : Path) : Prop := ".." ∉ p.parts ∨ w.Stands p.parent

theorem Firm.mono (h : w.Firm p) (hbelow : w.tree.Below v.tree) (hhere : v.here = w.here) :
    v.Firm p := by
  rcases h with hup | hstands
  · exact .inl hup
  · exact .inr (hstands.mono hbelow hhere)

/-- Apart from the touched places, entries stay as they were and only folders are new. -/
structure Alters (w v : World) (touched : Place → Prop) : Prop where
  here : v.here = w.here
  below : w.tree.Below v.tree
  entry : ∀ q, ¬ touched q → v.tree.get? q = w.tree.get? q ∨
    w.tree.get? q = none ∧ v.tree.get? q = some .folder

namespace Alters

theorem of_alike (h : w.Alike v) : w.Alters v touched :=
  ⟨h.2, .of_get fun q => by rw [h.1], fun q _ => .inl (by rw [h.1])⟩

theorem of_dug (h : w.Dug p v) : w.Alters v touched := by
  obtain ⟨t, ht, rfl⟩ := h
  exact ⟨rfl, ht.grows, fun q _ => ht.entry q⟩

theorem of_sets {node : Option Node} (hset : w.tree.Sets place node v.tree) (hhere : v.here = w.here)
    (hleaf : w.tree.skeleton place = none) (hleaf' : v.tree.skeleton place = none)
    (htouched : touched place) : w.Alters v touched := by
  refine ⟨hhere, hset.below hleaf (.inl hleaf'), fun q hq => .inl (hset.other ?_)⟩
  rintro rfl
  exact hq htouched

theorem trans (h : w.Alters v touched) (h' : v.Alters u touched) : w.Alters u touched := by
  refine ⟨h'.here.trans h.here, h.below.trans h'.below, fun q hq => ?_⟩
  rcases h.entry q hq with heq | ⟨hnone, hfolder⟩ <;>
    rcases h'.entry q hq with heq' | ⟨hnone', hfolder'⟩
  · exact .inl (heq'.trans heq)
  · exact .inr ⟨heq ▸ hnone', hfolder'⟩
  · exact .inr ⟨hnone, heq'.trans hfolder⟩
  · rw [hfolder] at hnone'
    cases hnone'

theorem mono (h : w.Alters v touched) (htouched : ∀ q, touched q → touched' q) :
    w.Alters v touched' :=
  ⟨h.here, h.below, fun q hq => h.entry q fun hin => hq (htouched q hin)⟩

theorem kept {q : Place} (h : w.Alters v touched) (hq : ¬ touched q)
    (hthere : w.tree.get? q ≠ none) : v.tree.get? q = w.tree.get? q := by
  rcases h.entry q hq with heq | ⟨hnone, -⟩
  · exact heq
  · exact absurd hnone hthere

theorem bytesAt {q : Place} (h : w.Alters v touched) (hq : ¬ touched q) :
    v.tree.bytesAt q = w.tree.bytesAt q := by
  rcases h.entry q hq with heq | ⟨hnone, hfolder⟩
  · exact Tree.bytesAt_congr heq
  · simp [Tree.bytesAt, hnone, hfolder]

end Alters

namespace Regular

theorem place_eq {follow : Bool} (h : w.Regular) (hwalk : w.tree.walk follow w.here p = .ok place) :
    place = p.placeFrom w.here := (Tree.walk_eq_ok_iff.mp hwalk).2.collapse h.linkless

theorem steady (h : w.Regular) (p : Path) : w.Steady p := .inr (.inl h.linkless)

/-- What can be read is a file at the path's place. -/
theorem of_read (h : w.Regular) (hread : w.read p = .ok bytes) :
    w.Lands p (p.placeFrom w.here) ∧ ∃ mode changed,
      w.tree.get? (p.placeFrom w.here) = some (.file bytes mode changed) := by
  obtain ⟨place, mode, changed, hlands, hfile⟩ := (h.steady p).lands_of_read hread
  obtain rfl := h.place_eq hlands.walk
  exact ⟨hlands, mode, changed, hfile⟩

/-- A file is read as before unless its place is touched. -/
theorem read_kept (h : w.Regular) (halters : w.Alters v touched)
    (huntouched : ¬ touched (p.placeFrom w.here)) (hread : w.read p = .ok bytes) :
    v.read p = .ok bytes := by
  obtain ⟨hlands, mode, changed, hfile⟩ := h.of_read hread
  have hkept := (halters.kept huntouched (by simp [hfile])).trans hfile
  exact (hlands.mono halters.below halters.here (Tree.skeleton_of_file hkept)).read_file hkept

/-- In a tree of files and folders a firm path reads the file at its place, if it does in any other
tree. -/
theorem read_of_entry (hw : w.Regular) (hv : v.Regular) (hhere : v.here = w.here) (hfirm : w.Firm p)
    (hlands : v.Lands p place) (hbytes : w.tree.bytesAt place = some bytes) :
    w.read p = .ok bytes := by
  obtain ⟨mode, changed, hfile⟩ := Tree.bytesAt_eq_some_iff.mp hbytes
  have hleaf := Tree.skeleton_of_file hfile
  have hlands' : w.Lands p place := by
    rcases hfirm with hup | ⟨r, hr, hfolder⟩
    · obtain ⟨hlen, hleads⟩ := Tree.walk_eq_ok_iff.mp hlands.walk
      rw [hhere] at hleads
      have hparts : p.parts ≠ [] := by
        rw [hlands.parts_eq hv.sound]
        simp
      exact ⟨Tree.walk_eq_ok_iff.mpr ⟨hlen,
        hleads.of_entry hw.sound.tree hv.linkless hup hparts (by simp [hfile]) hleaf⟩, hleaf⟩
    · obtain ⟨r', hr', -, hplain, hplace⟩ := hlands.split hv.sound
      have hsame : r' = r := by
        rw [hv.place_eq hr', hw.place_eq hr, hhere]
      subst hsame
      have hlen := (Tree.walk_eq_ok_iff.mp hlands.walk).1
      have hsnoc := (Tree.walk_eq_ok_iff.mp hr).2.snoc hfolder hplain
      rw [← hlands.parts_eq hv.sound, ← hplace] at hsnoc
      exact ⟨Tree.walk_eq_ok_iff.mpr ⟨hlen, hsnoc⟩, hleaf⟩
  exact hlands'.read_file hfile

/-- What a firm path reads is settled by the file at its place. -/
theorem held_congr (hw : w.Regular) (hv : v.Regular) (hbelow : w.tree.Below v.tree)
    (hhere : v.here = w.here) (hfirm : w.Firm p)
    (hbytes : v.tree.bytesAt (p.placeFrom w.here) = w.tree.bytesAt (p.placeFrom w.here)) :
    v.held p = w.held p := by
  refine Option.ext fun bytes => ?_
  rw [held_eq_some_iff, held_eq_some_iff]
  constructor
  · intro hread
    obtain ⟨hlands, mode, changed, hfile⟩ := hv.of_read hread
    rw [hhere] at hlands hfile
    refine hw.read_of_entry hv hhere hfirm hlands (hbytes ▸ ?_)
    exact Tree.bytesAt_eq_some_iff.mpr ⟨mode, changed, hfile⟩
  · intro hread
    obtain ⟨hlands, mode, changed, hfile⟩ := hw.of_read hread
    refine hv.read_of_entry hw hhere.symm (hfirm.mono hbelow hhere) hlands (hbytes ▸ ?_)
    exact Tree.bytesAt_eq_some_iff.mpr ⟨mode, changed, hfile⟩

end Regular

/-! ### Replacements in a tree of files and folders -/

theorem Dug.regular (h : w.Dug p u) (hw : w.Regular) : u.Regular := by
  refine ⟨h.sound hw.sound, ?_⟩
  obtain ⟨t, ht, rfl⟩ := h
  exact ht.linkless hw.linkless

namespace Replaces

variable {mode : Nat} (h : w.Replaces p u goal mode) (hw : w.Regular)
include h hw

theorem goal_eq : goal = p.placeFrom w.here := by
  rw [(h.dug.regular hw).place_eq h.walk, h.dug.here_eq]

theorem lands_goal : u.Lands p goal := h.lands hw.sound (hw.steady p)

/-- Whatever is set at the goal, nothing else is touched. -/
theorem alters_of_sets {node : Option Node} (hset : u.tree.Sets goal node v.tree)
    (hhere : v.here = u.here) (hleaf : v.tree.skeleton goal = none) :
    w.Alters v (· = p.placeFrom w.here) :=
  .trans (.of_dug h.dug) (.of_sets hset hhere (h.lands_goal hw).leaf hleaf (h.goal_eq hw))

theorem alters (content : Bytes) :
    w.Alters { u with tree := u.tree.put goal (.file content mode .lately) }
      (· = p.placeFrom w.here) := by
  have hset := Tree.put_sets (t := u.tree) (h.lands_goal hw).ne_nil (.file content mode .lately)
  exact h.alters_of_sets hw hset rfl (Tree.skeleton_of_file hset.self)

theorem read_new (content : Bytes) :
    World.read { u with tree := u.tree.put goal (.file content mode .lately) } p = .ok content :=
  ((h.lands_goal hw).at_put content mode .lately).read_file ((h.lands_goal hw).get_put _)

end Replaces
end World
end ConfigSteward
