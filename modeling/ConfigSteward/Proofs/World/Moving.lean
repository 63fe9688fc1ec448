import ConfigSteward.Proofs.World.Altering
import ConfigSteward.Proofs.World.Calls

/-!
# Files that come, move and go

In a tree of files and folders a file that is moved to a vacant place keeps its content, and a file
that is taken away touches its place alone.
-/
namespace ConfigSteward

namespace World

variable {w v : World} {source target p : Path}

/-- Nothing is at the place. -/
def Vacant (w : World) (q : Place) : Prop := w.tree.get? q = none

theorem Regular.not_vacant_of_read {bytes : Bytes} (hw : w.Regular) (hread : w.read p = .ok bytes) :
    ¬ w.Vacant (p.placeFrom w.here) := by
  obtain ⟨-, mode, changed, hfile⟩ := hw.of_read hread
  simp [Vacant, hfile]

/-- A file is read as before where only vacant places are touched. -/
theorem Regular.read_added {bytes : Bytes} (hw : w.Regular) (halters : w.Alters v w.Vacant)
    (hread : w.read p = .ok bytes) : v.read p = .ok bytes :=
  hw.read_kept halters (hw.not_vacant_of_read hread) hread

/-- A file is read as before where one other file is touched at most. -/
theorem Regular.read_other {q : Path} {bytes : Bytes} (hw : w.Regular)
    (halters : w.Alters v fun place => w.Vacant place ∨ place = q.placeFrom w.here)
    (hne : p.placeFrom w.here ≠ q.placeFrom w.here) (hread : w.read p = .ok bytes) :
    v.read p = .ok bytes := by
  refine hw.read_kept halters ?_ hread
  rintro (hvacant | hplace)
  · exact hw.not_vacant_of_read hread hvacant
  · exact hne hplace

/-- A file comes to the place that another path names, or nothing happens. -/
theorem Regular.move_cases (hw : w.Regular) (source target : Path) :
    (∃ f, w.move source target = (.error f, w)) ∨
      ∃ origin goal bytes mode changed, w.Lands source origin ∧ w.Lands target goal ∧
        w.tree.get? origin = some (.file bytes mode changed) ∧
        w.move source target = (.ok (), if origin = goal then w else
          { w with tree := (w.tree.remove origin).put goal (.file bytes mode changed) }) := by
  rcases horigin : w.tree.walk false w.here source with cause | origin
  · exact .inl ⟨_, by simp only [World.move, horigin]; rfl⟩
  rcases hgoal : w.tree.walk false w.here target with cause | goal
  · exact .inl ⟨_, by simp only [World.move, horigin, hgoal]; rfl⟩
  rcases hfile : w.tree.get? origin with _ | ⟨bytes, mode, changed⟩ | _ | link
  · exact .inl ⟨_, by simp only [World.move, horigin, hgoal, hfile]; rfl⟩
  · by_cases hfolder : w.tree.get? goal = some .folder
    · exact .inl ⟨_, by simp only [World.move, horigin, hgoal, hfile, hfolder, if_true]; rfl⟩
    · refine .inr ⟨origin, goal, bytes, mode, changed, hw.lands horigin (by simp [hfile]),
        hw.lands hgoal hfolder, hfile, ?_⟩
      simp only [World.move, horigin, hgoal, hfile, hfolder, if_false]
      split <;> rfl
  · exact .inl ⟨_, by simp only [World.move, horigin, hgoal, hfile]; rfl⟩
  · exact absurd hfile (hw.linkless origin link)

/-- What a look finds nothing at is vacant. -/
theorem Lands.vacant_of_leadsIn {goal : Place} (hlands : w.Lands p goal)
    (hnone : FileTask.leadsIn w p (fun _ => true) = .ok false) : w.Vacant goal := by
  rcases Tree.skeleton_eq_none_iff.mp hlands.leaf with hvacant | ⟨bytes, mode, changed, hfile⟩
  · exact hvacant
  · rw [FileTask.leadsIn, hlands.look_file hfile] at hnone
    cases hnone

/-- Moving a file to a vacant place keeps its content. -/
theorem Regular.move_alters (hw : w.Regular)
    (hnone : FileTask.leadsIn w target (fun _ => true) = .ok false) :
    w.Alters (w.move source target).2
        (fun q => w.Vacant q ∨ q = source.placeFrom w.here) ∧
      ((w.move source target).1 = .ok () → ∀ bytes, w.read source = .ok bytes →
        (w.move source target).2.read target = .ok bytes) := by
  rcases hw.move_cases source target with
    ⟨f, hmove⟩ | ⟨origin, goal, bytes, mode, changed, hsource, htarget, hfile, hmove⟩
  · rw [hmove]
    exact ⟨.of_alike (.refl w), nofun⟩
  have hvacant := htarget.vacant_of_leadsIn hnone
  have hne : origin ≠ goal := by
    rintro rfl
    rw [Vacant, hfile] at hvacant
    cases hvacant
  rw [if_neg hne] at hmove
  rw [hmove]
  have hremove := Tree.remove_sets (t := w.tree) hsource.ne_nil
  have hput := Tree.put_sets (t := w.tree.remove origin) htarget.ne_nil (.file bytes mode changed)
  have hleaf : (w.tree.remove origin).skeleton goal = none :=
    Tree.skeleton_of_vacant ((hremove.other hne.symm).trans hvacant)
  have halters : w.Alters
      { w with tree := (w.tree.remove origin).put goal (.file bytes mode changed) }
      fun q => w.Vacant q ∨ q = source.placeFrom w.here := by
    have hfirst : w.Alters { w with tree := w.tree.remove origin }
        fun q => w.Vacant q ∨ q = source.placeFrom w.here :=
      .of_sets hremove rfl hsource.leaf (Tree.skeleton_of_vacant hremove.self)
        (.inr (hw.place_eq hsource.walk))
    exact hfirst.trans (.of_sets hput rfl hleaf (Tree.skeleton_of_file hput.self) (.inl hvacant))
  refine ⟨halters, fun _ content hread => ?_⟩
  rw [hsource.read_file hfile] at hread
  cases hread
  exact (htarget.mono halters.below halters.here (Tree.skeleton_of_file hput.self)).read_file
    hput.self

theorem noted_move (w : World) (source target : Path) :
    (w.move source target).2.noted = w.noted := by
  unfold World.move
  repeat' split
  all_goals rfl

theorem eq_of_move_error {f : Fault} (h : w.move source target = (.error f, v)) :
    v = w := by
  unfold World.move at h
  dsimp only at h
  repeat' split at h
  all_goals cases h
  all_goals rfl

theorem unlink_cases (w : World) (p : Path) :
    (∃ f, w.unlink p = (.error f, w)) ∨
      ∃ place, w.unlink p = (.ok (), { w with tree := w.tree.remove place }) := by
  unfold World.unlink
  split
  · exact .inl ⟨_, rfl⟩
  · split
    · exact .inl ⟨_, rfl⟩
    · exact .inl ⟨_, rfl⟩
    · exact .inr ⟨_, rfl⟩

/-- Taking an entry away touches its place alone. -/
theorem Regular.unlink_alters (hw : w.Regular) (p : Path) :
    w.Alters (w.unlink p).2 (· = p.placeFrom w.here) := by
  unfold World.unlink
  split
  · exact .of_alike (.refl w)
  · next place hwalk =>
    split
    · exact .of_alike (.refl w)
    · exact .of_alike (.refl w)
    · next node hnofolder hget =>
      have hplace := hw.place_eq hwalk
      have hlands := hw.lands hwalk (by
        rw [hget]
        exact fun heq => hnofolder (Option.some.inj heq))
      have hset := Tree.remove_sets (t := w.tree) hlands.ne_nil
      exact .of_sets hset rfl hlands.leaf (Tree.skeleton_of_vacant hset.self) hplace

/-! ### Folders stay -/

private theorem add_below (w : World) (p : Path) {node : Node} (hnode : ∀ target, node ≠ .link target) :
    w.tree.Below (w.add p node).2.tree := by
  rcases w.add_cases p node with ⟨place, hlands, -, hadd⟩ | ⟨f, -, hadd⟩
  · have hset := Tree.put_sets (t := w.tree) hlands.ne_nil node
    rw [hadd]
    refine hset.below hlands.leaf ?_
    cases node with
    | file bytes mode changed => exact .inl (Tree.skeleton_of_file hset.self)
    | folder => exact .inr (Tree.skeleton_eq_folder_iff.mpr hset.self)
    | link target => exact absurd rfl (hnode target)
  · rw [hadd]
    exact .of_eq fun _ => rfl

private theorem alter_below (w : World) (p : Path) {f : Bytes → Nat → Changed → Node}
    (hf : ∀ bytes mode changed, ∃ bytes' mode' changed',
      f bytes mode changed = .file bytes' mode' changed') : w.tree.Below (w.alter p f).2.tree := by
  unfold World.alter
  split
  · exact .of_eq fun _ => rfl
  · next place hwalk =>
    split
    · next bytes mode changed hfile =>
      obtain ⟨bytes', mode', changed', hnew⟩ := hf bytes mode changed
      have hleaf := Tree.skeleton_of_file hfile
      have hset := Tree.put_sets (t := w.tree) (Tree.ne_nil_of_leaf hleaf) (f bytes mode changed)
      exact hset.below hleaf (.inl (Tree.skeleton_of_file (hset.self.trans (congrArg some hnew))))
    · exact .of_eq fun _ => rfl
    · exact .of_eq fun _ => rfl

theorem Regular.move_below (hw : w.Regular) (source target : Path) :
    w.tree.Below (w.move source target).2.tree := by
  rcases hw.move_cases source target with
    ⟨f, hmove⟩ | ⟨origin, goal, bytes, mode, changed, hsource, htarget, -, hmove⟩
  · rw [hmove]
    exact .of_eq fun _ => rfl
  rw [hmove]
  split
  · exact .of_eq fun _ => rfl
  · next hne =>
    have hremove := Tree.remove_sets (t := w.tree) hsource.ne_nil
    have hput := Tree.put_sets (t := w.tree.remove origin) htarget.ne_nil (.file bytes mode changed)
    have hfirst := hremove.below hsource.leaf (.inl (Tree.skeleton_of_vacant hremove.self))
    refine hfirst.trans (hput.below ?_ (.inl (Tree.skeleton_of_file hput.self)))
    rw [Tree.skeleton, hremove.other (Ne.symm hne)]
    exact htarget.leaf

/-- One request leaves the folders of a tree of files and folders where they are. -/
theorem perform_below (hw : w.Regular) (hquiet : w.Quiet) (r : Request) :
    w.tree.Below (w.perform r).2.tree := by
  have hsame : w.tree.Below w.tree := .of_eq fun _ => rfl
  cases r with
  | read | look | list | resolve | clock | latest | acquire | release | note => exact hsame
  | create p => exact w.add_below p (by simp)
  | makeFolder p => exact w.add_below p (by simp)
  | createTemp folder base =>
    rcases createTemp_cases hw.sound folder base with
      ⟨n, r, temp, -, hlands, -, hcreate⟩ | ⟨f, hcreate⟩
    · have hset := Tree.put_sets (t := w.tree) hlands.ne_nil (.file [] privateMode .lately)
      change w.tree.Below (w.createTemp folder base).2.tree
      rw [hcreate]
      exact hset.below hlands.leaf (.inl (Tree.skeleton_of_file hset.self))
    · change w.tree.Below (w.createTemp folder base).2.tree
      rw [hcreate]
      exact hsame
  | fill p bytes => exact w.alter_below p fun _ _ _ => ⟨_, _, _, rfl⟩
  | setMode p mode => exact w.alter_below p fun _ _ _ => ⟨_, _, _, rfl⟩
  | move source target => exact hw.move_below source target
  | unlink p => exact (hw.unlink_alters p).below
  | run args =>
    change w.tree.Below (w.programs w.ran args w.tree).2
    rw [hquiet]
    exact hsame

end World

theorem Plan.run_below {α : Type} (p : Plan α) {w : World} (hw : w.Regular) (hquiet : w.Quiet) :
    w.tree.Below (p.run w).2.tree := by
  induction p generalizing w with
  | done a => exact .of_eq fun _ => rfl
  | ask r next ih =>
    exact (World.perform_below hw hquiet r).trans
      (ih _ (World.perform_regular hw hquiet r) (World.perform_quiet hquiet r))

end ConfigSteward
