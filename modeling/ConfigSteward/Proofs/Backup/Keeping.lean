import ConfigSteward.Proofs.Backup.Creation
import ConfigSteward.Proofs.Name.BackupName
import ConfigSteward.Proofs.World.Locks
import ConfigSteward.Proofs.World.Moving

/-!
# Keeping backups

In a tree of files and folders every backup has one place, directly in the store's folder under its
name. A new one comes up at a free place; finding one gives its path, and taking one away touches its
place alone.
-/
namespace ConfigSteward

open Plan

namespace Path

theorem collapse_keeps_no_up {place : Place} (h : ".." ∉ place) (names : List String) :
    ".." ∉ collapse place names := by
  induction names generalizing place with
  | nil => exact h
  | cons name names ih =>
    rw [collapse]
    split
    · exact ih fun hmem => h (List.dropLast_subset place hmem)
    · next hname =>
      refine ih fun hmem => ?_
      rcases List.mem_append.mp hmem with hmem | hmem
      · exact h hmem
      · exact hname (List.mem_singleton.mp hmem).symm

end Path

namespace Tree

variable {t : Tree}

theorem Linkless.resolveFrom_eq (ht : t.Linkless) (fuel : Nat) (active : List Place) (place : Place)
    (names : List String) :
    t.resolveFrom fuel active place names = (Path.collapse place names, true) := by
  induction names generalizing place with
  | nil => rw [resolveFrom, Path.collapse]
  | cons name names ih =>
    rw [resolveFrom, Path.collapse]
    split
    · exact ih _
    · dsimp only
      split
      · next target hlink => exact absurd hlink (ht _ target)
      · exact ih _

/-- Without links a path stands for its own place. -/
theorem Linkless.resolve_eq (ht : t.Linkless) (here : Place) (p : Path) :
    t.resolve here p = .ok (p.placeFrom here) := by
  rw [resolve, ht.resolveFrom_eq, Path.placeFrom]

end Tree

namespace Store

variable {s : Store} {w v : World} {artifact name : String} {content : Bytes} {place q : Place}

/-- The place of a backup: directly in the folder, under a name with the ending. -/
def Owns (s : Store) (q : Place) : Prop :=
  ∃ name, Name.endsIn Name.backupSuffix name = true ∧ q = s.folder ++ [name]

/-- A place that a new backup may take. -/
def Free (s : Store) (w : World) (q : Place) : Prop := s.Owns q ∧ w.tree.get? q = none

theorem ne_up_of_endsIn (h : Name.endsIn Name.backupSuffix name = true) : name ≠ ".." := by
  rintro rfl
  exact absurd h (by decide)

private theorem placeFrom_folder (hs : ".." ∉ s.folder) (here : Place) :
    s.folder.path.placeFrom here = s.folder :=
  (Path.collapse_of_no_up hs []).trans (List.nil_append _)

/-- A store opens at the place that its path stands for, in a folder. -/
theorem does_openIn_stands (w : World) (p : Path) :
    (openIn p).run.Does (fun _ => True) w fun r v _ => ∀ s, r = .ok s →
      w.tree.resolve w.here p = .ok s.folder ∧ w.Dug s.folder.path v ∧ v.Stands s.folder.path := by
  rw [openIn]
  refine does_andThen.mpr (Task.does_resolve_eq trivial (fun place hplace => ?_) fun place _ => ?_)
  · refine does_andThen.mpr (Task.does_ofFile.mpr
      ((FileTask.does_ensureFolder w place.path).mono (fun _ _ => trivial) ?_))
    rintro (f | ⟨⟩) v es ⟨-, hdug, hstands⟩
    · exact ⟨trivial, by simp⟩
    · refine does_pure.mpr ⟨trivial, fun s hopened => ?_⟩
      cases hopened
      exact ⟨hplace, hdug, hstands rfl⟩
  · exact ⟨trivial, by simp⟩

theorem placeFrom_pathOf (hs : ".." ∉ s.folder) (hname : Name.endsIn Name.backupSuffix name = true)
    (here : Place) : (s.pathOf name).placeFrom here = s.folder ++ [name] := by
  rw [pathOf, Path.placeFrom_child _ _ (ne_up_of_endsIn hname), placeFrom_folder hs]

theorem Slot.endsIn (h : s.Slot w artifact name place) :
    Name.endsIn Name.backupSuffix name = true := by
  obtain ⟨counter, -, rfl⟩ := h.named
  exact Name.endsIn_writeBackup _ _ _

theorem Slot.free (h : s.Slot w artifact name place) (hw : w.Regular) (hs : ".." ∉ s.folder) :
    s.Free w place := by
  refine ⟨⟨name, h.endsIn, ?_⟩, h.vacant⟩
  rw [← placeFrom_pathOf hs h.endsIn w.here]
  exact hw.place_eq h.lands.walk

/-- A new backup touches a free place alone. -/
theorem Slot.alters (h : s.Slot w artifact name place) (hw : w.Regular) (hs : ".." ∉ s.folder)
    (content : Bytes) : w.Alters ((w.noting artifact).withFile place content) (s.Free w) := by
  have hset : w.tree.Sets place _ ((w.noting artifact).withFile place content).tree :=
    Tree.put_sets h.lands.ne_nil _
  exact .of_sets hset rfl h.lands.leaf (Tree.skeleton_of_file hset.self) (h.free hw hs)

theorem Slot.regular (h : s.Slot w artifact name place) (hw : w.Regular) (content : Bytes) :
    ((w.noting artifact).withFile place content).Regular :=
  ⟨((w.noting_alike artifact).lands h.lands).put_sound ((w.noting_alike artifact).sound hw.sound)
    _ _ _, (Tree.put_sets h.lands.ne_nil _).linkless hw.linkless (by simp)⟩

theorem Slot.read_new (h : s.Slot w artifact name place) (content : Bytes) :
    ((w.noting artifact).withFile place content).read (s.pathOf name) = .ok content :=
  (((w.noting_alike artifact).lands h.lands).at_put content _ _).read_file (h.lands.get_put _)

/-- What is found is a backup under a safe name, at the path that its name has. -/
theorem does_find (hw : w.Regular) (hs : ".." ∉ s.folder) (name : String) :
    (s.find name).run.Does (· = w) w fun r v es => v = w ∧ es = [] ∧
      ∀ path, r = .ok path → Name.Safe name ∧ Name.endsIn Name.backupSuffix name = true ∧
        path = s.pathOf name := by
  rw [find]
  by_cases hname : (Name.isSafe name && Name.endsIn Name.backupSuffix name) = true
  · simp only [hname, if_true]
    obtain ⟨hsafe, hends⟩ := Bool.and_eq_true_iff.mp hname
    have hsafe' : Name.Safe name := by
      refine .of_isSafe hsafe ?_
      rw [Name.getLast?_of_endsIn hends (by decide)]
      decide
    refine does_andThen.mpr ((Task.does_resolve w _).mono (fun _ hv => hv) ?_)
    rintro r v es ⟨rfl, rfl, ⟨place, rfl, hplace⟩ | ⟨place, rfl⟩⟩
    · rw [hw.linkless.resolve_eq, placeFrom_pathOf hs hends] at hplace
      cases hplace
      simp only [List.dropLast_concat, if_true]
      refine does_andThen.mpr (Task.does_ofFile.mpr (FileTask.does_leads.mpr ⟨rfl, ?_⟩))
      rcases FileTask.leadsIn v _ _ with f | (_ | _)
      · exact ⟨rfl, rfl, rfl, nofun⟩
      · exact does_throw.mpr ⟨rfl, rfl, rfl, nofun⟩
      · refine does_pure.mpr ⟨rfl, rfl, rfl, fun path hpath => ⟨hsafe', hends, ?_⟩⟩
        exact (Except.ok.inj hpath).symm
    · exact ⟨rfl, rfl, rfl, nofun⟩
  · simp only [hname]
    exact Task.does_refuse.mpr ⟨rfl, rfl, rfl, nofun⟩

theorem does_get (hw : w.Regular) (hs : ".." ∉ s.folder) (name : String) :
    (s.get name).run.Does (· = w) w fun r v es => v = w ∧ es = [] ∧
      ∀ content, r = .ok content → Name.Safe name ∧ Name.endsIn Name.backupSuffix name = true ∧
        w.read (s.pathOf name) = .ok content := by
  rw [get]
  refine does_andThen.mpr ((does_find hw hs name).mono (fun _ hv => hv) ?_)
  rintro (failure | path) v es ⟨rfl, rfl, hpath⟩
  · exact ⟨rfl, rfl, rfl, nofun⟩
  · obtain ⟨hsafe, hends, rfl⟩ := hpath path rfl
    refine Task.does_ofFileOr.mpr (FileTask.does_read.mpr ⟨rfl, rfl, rfl, fun content hread => ?_⟩)
    refine ⟨hsafe, hends, ?_⟩
    rcases h : v.read (s.pathOf name) with f | bytes
    · rw [h] at hread
      cases hread
    · rw [h] at hread
      cases hread
      rfl

/-- Taking a backup away touches its place alone. -/
theorem does_delete (hw : w.Regular) (hs : ".." ∉ s.folder) (name : String) :
    (s.delete name).run.Does (fun _ => True) w fun _ v _ =>
      v.noted = w.noted ∧ w.Alters v fun q => s.Owns q ∧ q = s.folder ++ [name] := by
  rw [delete]
  refine does_andThen.mpr ((does_find hw hs name).mono (fun _ _ => trivial) ?_)
  rintro (failure | path) v es ⟨rfl, rfl, hpath⟩
  · exact ⟨trivial, rfl, .of_alike (.refl v)⟩
  · obtain ⟨-, hends, rfl⟩ := hpath path rfl
    have halters : v.Alters (v.unlink (s.pathOf name)).2
        fun q => s.Owns q ∧ q = s.folder ++ [name] := by
      refine (hw.unlink_alters (s.pathOf name)).mono fun q hq => ?_
      rw [placeFrom_pathOf hs hends] at hq
      exact ⟨⟨name, hends, hq⟩, hq⟩
    have hnoted : (v.unlink (s.pathOf name)).2.noted = v.noted := by
      unfold World.unlink
      repeat' split
      all_goals rfl
    refine does_andThen.mpr (Task.does_attemptFile.mpr (FileTask.does_unlink.mpr
      ⟨trivial, trivial, ?_⟩))
    rcases (v.unlink (s.pathOf name)).1 with f | ⟨⟩
    · by_cases hf : f.cause = .noEntry
      · simp only [hf, if_true]
        exact Task.does_refuse.mpr ⟨trivial, hnoted, halters⟩
      · simp only [hf, if_false]
        exact Task.does_refuse.mpr ⟨trivial, hnoted, halters⟩
    · exact does_pure.mpr ⟨trivial, hnoted, halters⟩

end Store
end ConfigSteward
