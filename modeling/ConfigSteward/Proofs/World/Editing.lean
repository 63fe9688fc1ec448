import ConfigSteward.Proofs.World.Moving

/-!
# Requests that change files alone

In a tree of files and folders every request but the making of a folder leaves the folders as they
are, and the entries that it changes are at the places of its paths. Where a path leads and what is
found there is settled by the entries on the way.
-/
namespace ConfigSteward

/-- Without links a walk depends only on the entries that it comes by. -/
theorem Tree.walkFrom_congr {t t' : Tree} (ht : t.Linkless) {follow : Bool} {links : Nat}
    {place : Place} {names : List String}
    (hsame : ∀ front, front <+: names →
      t'.get? (Path.collapse place front) = t.get? (Path.collapse place front)) :
    t'.walkFrom follow links place names = t.walkFrom follow links place names := by
  induction names generalizing place with
  | nil => rw [walkFrom, walkFrom]
  | cons name names ih =>
    rw [walkFrom, walkFrom]
    by_cases hup : name = ".."
    · have hrest : ∀ front, front <+: names → t'.get? (Path.collapse place.dropLast front)
          = t.get? (Path.collapse place.dropLast front) := by
        intro front hfront
        have h := hsame (name :: front) ((List.prefix_cons_inj name).mpr hfront)
        rwa [Path.collapse, if_pos hup] at h
      rw [if_pos hup, if_pos hup, ih hrest]
    · have hrest : ∀ front, front <+: names → t'.get? (Path.collapse (place ++ [name]) front)
          = t.get? (Path.collapse (place ++ [name]) front) := by
        intro front hfront
        have h := hsame (name :: front) ((List.prefix_cons_inj name).mpr hfront)
        rwa [Path.collapse, if_neg hup] at h
      have hnext := hrest [] List.nil_prefix
      rw [Path.collapse] at hnext
      rw [if_neg hup, if_neg hup, hnext]
      rcases hget : t.get? (place ++ [name]) with _ | _ | _ | target
      · rfl
      · rfl
      · simp only [ih hrest]
      · exact absurd hget (ht _ target)

namespace Tree

variable {t t' : Tree} {q : Place}

theorem get?_put_congr (h : t'.get? q = t.get? q) (place : Place) (node : Node) :
    (t'.put place node).get? q = (t.put place node).get? q := by
  by_cases hq : q = []
  · simp [hq]
  · rw [get?_put _ _ _ _ hq, get?_put _ _ _ _ hq, h]

theorem get?_remove_congr (h : t'.get? q = t.get? q) (place : Place) :
    (t'.remove place).get? q = (t.remove place).get? q := by
  by_cases hq : q = []
  · simp [hq]
  · rw [get?_remove _ _ _ hq, get?_remove _ _ _ hq, h]

end Tree

namespace World

variable {w v u : World} {p source target : Path} {place : Place} {node : Option Node}
  {touched touched' : Place → Prop}

/-- Folders and links stay as they were, and so do all entries but the touched ones. -/
structure Edits (w v : World) (touched : Place → Prop) : Prop where
  skeleton : ∀ q, v.tree.skeleton q = w.tree.skeleton q
  entry : ∀ q, ¬ touched q → v.tree.get? q = w.tree.get? q

namespace Edits

theorem refl (w : World) : w.Edits w touched := ⟨fun _ => rfl, fun _ _ => rfl⟩

theorem of_sets (hset : w.tree.Sets place node v.tree) (hleaf : w.tree.skeleton place = none)
    (hleaf' : v.tree.skeleton place = none) (htouched : touched place) : w.Edits v touched := by
  refine ⟨hset.skeleton_eq hleaf hleaf', fun q hq => hset.other ?_⟩
  rintro rfl
  exact hq htouched

theorem trans (h : w.Edits v touched) (h' : v.Edits u touched) : w.Edits u touched :=
  ⟨fun q => (h'.skeleton q).trans (h.skeleton q),
    fun q hq => (h'.entry q hq).trans (h.entry q hq)⟩

theorem mono (h : w.Edits v touched) (htouched : ∀ q, touched q → touched' q) :
    w.Edits v touched' :=
  ⟨h.skeleton, fun q hq => h.entry q fun hin => hq (htouched q hin)⟩

end Edits

namespace Regular

theorem add_edits (hw : w.Regular) (p : Path) (bytes : Bytes) (mode : Nat) (changed : Changed) :
    w.Edits (w.add p (.file bytes mode changed)).2 (· = p.placeFrom w.here) := by
  rcases w.add_cases p (.file bytes mode changed) with
    ⟨place, hlands, -, hadd⟩ | ⟨f, -, hadd⟩
  · have hset := Tree.put_sets (t := w.tree) hlands.ne_nil (.file bytes mode changed)
    rw [hadd]
    exact .of_sets hset hlands.leaf (Tree.skeleton_of_file hset.self) (hw.place_eq hlands.walk)
  · rw [hadd]
    exact .refl w

theorem alter_edits (hw : w.Regular) (p : Path) {f : Bytes → Nat → Changed → Node}
    (hf : ∀ bytes mode changed, ∃ bytes' mode' changed',
      f bytes mode changed = .file bytes' mode' changed') :
    w.Edits (w.alter p f).2 (· = p.placeFrom w.here) := by
  unfold World.alter
  split
  · exact .refl w
  · next place hwalk =>
    split
    · next bytes mode changed hfile =>
      obtain ⟨bytes', mode', changed', hnew⟩ := hf bytes mode changed
      have hleaf := Tree.skeleton_of_file hfile
      have hset := Tree.put_sets (t := w.tree) (Tree.ne_nil_of_leaf hleaf) (f bytes mode changed)
      have hself := hset.self.trans (congrArg some hnew)
      exact .of_sets hset hleaf (Tree.skeleton_of_file hself) (hw.place_eq hwalk)
    · exact .refl w
    · exact .refl w

theorem move_edits (hw : w.Regular) (source target : Path) :
    w.Edits (w.move source target).2
      fun q => q = source.placeFrom w.here ∨ q = target.placeFrom w.here := by
  rcases hw.move_cases source target with
    ⟨f, hmove⟩ | ⟨origin, goal, bytes, mode, changed, hsource, htarget, -, hmove⟩
  · rw [hmove]
    exact .refl w
  rw [hmove]
  split
  · exact .refl w
  · next hne =>
    have hremove := Tree.remove_sets (t := w.tree) hsource.ne_nil
    have hput := Tree.put_sets (t := w.tree.remove origin) htarget.ne_nil (.file bytes mode changed)
    have hleaf : (w.tree.remove origin).skeleton goal = none := by
      rw [Tree.skeleton, hremove.other (Ne.symm hne)]
      exact htarget.leaf
    have hfirst : w.Edits { w with tree := w.tree.remove origin }
        fun q => q = source.placeFrom w.here ∨ q = target.placeFrom w.here :=
      .of_sets hremove hsource.leaf (Tree.skeleton_of_vacant hremove.self)
        (.inl (hw.place_eq hsource.walk))
    exact hfirst.trans (.of_sets hput hleaf (Tree.skeleton_of_file hput.self)
      (.inr (hw.place_eq htarget.walk)))

theorem unlink_edits (hw : w.Regular) (p : Path) :
    w.Edits (w.unlink p).2 (· = p.placeFrom w.here) := by
  unfold World.unlink
  split
  · exact .refl w
  · next place hwalk =>
    split
    · exact .refl w
    · exact .refl w
    · next node hnofolder hget =>
      have hlands := hw.lands hwalk (by
        rw [hget]
        exact fun heq => hnofolder (Option.some.inj heq))
      have hset := Tree.remove_sets (t := w.tree) hlands.ne_nil
      exact .of_sets hset hlands.leaf (Tree.skeleton_of_vacant hset.self) (hw.place_eq hwalk)

theorem createTemp_edits (hw : w.Regular) (folder : Path) (base : String) :
    w.Edits (w.createTemp folder base).2
      fun q => ∃ n, q = ((w.tempFolder folder).child (tempName base n)).placeFrom w.here := by
  obtain ⟨m, hname, -⟩ := freeTemp_least hw.sound (w.tempFolder folder) base _
  have hadd := hw.add_edits ((w.tempFolder folder).child (tempName base m)) [] privateMode .lately
  rw [createTemp, hname]
  rcases hresult : w.add ((w.tempFolder folder).child (tempName base m))
    (.file [] privateMode .lately) with ⟨_ | _, v⟩
  all_goals
    rw [hresult] at hadd
    exact hadd.mono fun q hq => ⟨m, hq⟩

end Regular

/-- Where no folder is new, all entries stay but the touched ones. -/
theorem Alters.edits (h : w.Alters v touched)
    (hskeleton : ∀ q, v.tree.skeleton q = w.tree.skeleton q) : w.Edits v touched := by
  refine ⟨hskeleton, fun q hq => ?_⟩
  rcases h.entry q hq with heq | ⟨hnone, hfolder⟩
  · exact heq
  · rw [← Tree.skeleton_eq_folder_iff, hskeleton, Tree.skeleton_of_vacant hnone] at hfolder
    cases hfolder

end World
end ConfigSteward
