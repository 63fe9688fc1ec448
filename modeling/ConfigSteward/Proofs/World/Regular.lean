import ConfigSteward.Proofs.World.Temporary

/-!
# Trees of files and folders

As long as no program touches a file, every request keeps a tree of files and folders one, and so
does every plan.
-/
namespace ConfigSteward

namespace World

variable {w v : World} {p source target : Path} {place goal : Place} {node : Node}

/-- No program touches a file. -/
def Quiet (w : World) : Prop := ∀ ran args tree, (w.programs ran args tree).2 = tree

/-- A tree of files and folders, each in a folder. -/
structure Regular (w : World) : Prop where
  sound : w.Sound
  linkless : w.tree.Linkless

namespace Regular

theorem put (h : w.Regular) (hfolder : w.tree.get? place ≠ some .folder)
    (hparent : w.tree.get? place.dropLast = some .folder) (hnode : ∀ target, node ≠ .link target) :
    Regular { w with tree := w.tree.put place node } := by
  have hplace : place ≠ [] := by
    rintro rfl
    simp at hfolder
  have hset := Tree.put_sets (t := w.tree) hplace node
  refine ⟨⟨hset.sound h.sound.tree hfolder hparent, ?_⟩,
    hset.linkless h.linkless fun target heq => hnode target (Option.some.inj heq)⟩
  have hhere : w.here ≠ place := fun heq => hfolder (heq ▸ h.sound.here)
  exact (hset.other hhere).trans h.sound.here

theorem remove (h : w.Regular) (hfolder : w.tree.get? place ≠ some .folder) :
    Regular { w with tree := w.tree.remove place } := by
  have hplace : place ≠ [] := by
    rintro rfl
    simp at hfolder
  have hset := Tree.remove_sets (t := w.tree) hplace
  refine ⟨⟨fun q node hq hget => ?_, ?_⟩, hset.linkless h.linkless fun target heq => by cases heq⟩
  · by_cases hqp : q = place
    · rw [hqp, hset.self] at hget
      cases hget
    · have hparent := h.sound.tree q node hq (hset.other hqp ▸ hget)
      have hne : q.dropLast ≠ place := fun heq => hfolder (heq ▸ hparent)
      exact (hset.other hne).trans hparent
  · have hhere : w.here ≠ place := fun heq => hfolder (heq ▸ h.sound.here)
    exact (hset.other hhere).trans h.sound.here

theorem of_alike (h : w.Regular) (hv : w.Alike v) : v.Regular :=
  ⟨hv.sound h.sound, fun p target => hv.1 ▸ h.linkless p target⟩

/-- In a tree of files and folders a path that leads to no folder lands. -/
theorem lands (h : w.Regular) (hwalk : w.tree.walk false w.here p = .ok place)
    (hfolder : w.tree.get? place ≠ some .folder) : w.Lands p place :=
  lands_of_walk hwalk hfolder (h.linkless place)

theorem add (h : w.Regular) (p : Path) (hnode : ∀ target, node ≠ .link target) :
    (w.add p node).2.Regular := by
  rcases w.add_cases p node with ⟨place, hlands, hnone, hadd⟩ | ⟨f, -, hadd⟩
  · obtain ⟨r, -, hr, -, hplace⟩ := hlands.split h.sound
    rw [hadd]
    exact h.put (by simp [hnone]) (by rw [hplace, List.dropLast_concat, hr]) hnode
  · rw [hadd]
    exact h

theorem alter (h : w.Regular) (p : Path) {f : Bytes → Nat → Changed → Node}
    (hf : ∀ bytes mode changed target, f bytes mode changed ≠ .link target) :
    (w.alter p f).2.Regular := by
  unfold World.alter
  split
  · exact h
  · next place hwalk =>
    split
    · next bytes mode changed hfile =>
      have hplace : place ≠ [] := by
        rintro rfl
        simp at hfile
      exact h.put (by simp [hfile]) (h.sound.tree place _ hplace hfile) (hf bytes mode changed)
    · exact h
    · exact h

theorem move (h : w.Regular) (source target : Path) : (w.move source target).2.Regular := by
  unfold World.move
  dsimp only
  split
  · exact h
  · exact h
  · next origin goal horigin hgoal =>
    split
    · exact h
    · exact h
    · next node hnofolder hget =>
      split
      · exact h
      · next hfolder =>
        split
        · exact h
        · next hne =>
          have horigin' : w.tree.get? origin ≠ some .folder := by
            rw [hget]
            exact fun heq => hnofolder (Option.some.inj heq)
          have hlands := h.lands hgoal hfolder
          obtain ⟨r, -, hr, -, hplace⟩ := hlands.split h.sound
          have hset := Tree.remove_sets (t := w.tree) (p := origin) (by
            rintro rfl
            simp at horigin')
          have hgoal' : (w.tree.remove origin).get? goal ≠ some .folder := by
            rwa [hset.other (Ne.symm hne)]
          have hparent : (w.tree.remove origin).get? goal.dropLast = some .folder := by
            rw [hplace, List.dropLast_concat, hset.other (fun heq => horigin' (heq ▸ hr)), hr]
          refine (h.remove horigin').put hgoal' hparent fun link heq => ?_
          exact h.linkless origin link (by rw [hget, heq])

theorem unlink (h : w.Regular) (p : Path) : (w.unlink p).2.Regular := by
  unfold World.unlink
  split
  · exact h
  · next place hwalk =>
    split
    · exact h
    · exact h
    · next node hnofolder hget =>
      refine h.remove ?_
      rw [hget]
      exact fun heq => hnofolder (Option.some.inj heq)

end Regular

/-- One request keeps a tree of files and folders. -/
theorem perform_regular (h : w.Regular) (hquiet : w.Quiet) (r : Request) :
    (w.perform r).2.Regular := by
  cases r with
  | read | look | list | resolve | clock | latest | acquire | release => exact h
  | create p => exact h.add p (by simp)
  | makeFolder p => exact h.add p (by simp)
  | createTemp folder base =>
    rcases createTemp_cases h.sound folder base with
      ⟨n, r, temp, -, hlands, hnone, hcreate⟩ | ⟨f, hcreate⟩
    · obtain ⟨q, -, hq, -, hplace⟩ := hlands.split h.sound
      change (w.createTemp folder base).2.Regular
      rw [hcreate]
      exact h.put (by simp [hnone]) (by rw [hplace, List.dropLast_concat, hq]) (by simp)
    · change (w.createTemp folder base).2.Regular
      rw [hcreate]
      exact h
  | fill p bytes => exact h.alter p (by simp)
  | setMode p mode => exact h.alter p (by simp)
  | move source target => exact h.move source target
  | unlink p => exact h.unlink p
  | run args =>
    change Regular { w with tree := (w.programs w.ran args w.tree).2, ran := args :: w.ran }
    rw [hquiet]
    exact ⟨⟨h.sound.tree, h.sound.here⟩, h.linkless⟩
  | note artifact reading => exact ⟨⟨h.sound.tree, h.sound.here⟩, h.linkless⟩

/-- A request changes the tree and notes readings and runs; the rest of the world stays. -/
theorem perform_keeps (w : World) (r : Request) : ∃ tree noted, (w.perform r).2 =
    { w with tree, noted, ran := (w.executed r).map Execution.args ++ w.ran } := by
  cases r with
  | read | look | list | resolve | clock | latest | acquire | release | run | note =>
    exact ⟨_, _, rfl⟩
  | create | makeFolder =>
    simp only [perform, World.add]
    split <;> exact ⟨_, _, rfl⟩
  | createTemp folder base =>
    simp only [perform, createTemp]
    rcases w.add_cases (w.freeTemp (w.tempFolder folder) base _ w.tempTries)
      (.file [] privateMode .lately) with ⟨place, -, -, hadd⟩ | ⟨f, -, hadd⟩
    · rw [hadd]
      exact ⟨_, _, rfl⟩
    · rw [hadd]
      exact ⟨_, _, rfl⟩
  | fill | setMode =>
    simp only [perform, World.alter]
    repeat' split
    all_goals exact ⟨_, _, rfl⟩
  | move =>
    simp only [perform, World.move]
    repeat' split
    all_goals exact ⟨_, _, rfl⟩
  | unlink =>
    simp only [perform, World.unlink]
    repeat' split
    all_goals exact ⟨_, _, rfl⟩

theorem perform_frame (w : World) (r : Request) :
    (w.perform r).2.here = w.here ∧ (w.perform r).2.clock = w.clock ∧
      (w.perform r).2.programs = w.programs := by
  obtain ⟨tree, noted, heq⟩ := w.perform_keeps r
  rw [heq]
  exact ⟨rfl, rfl, rfl⟩

theorem perform_draw (w : World) (r : Request) : (w.perform r).2.draw = w.draw := by
  obtain ⟨tree, noted, heq⟩ := w.perform_keeps r
  rw [heq]

theorem perform_ran (w : World) (r : Request) :
    (w.perform r).2.ran = (w.executed r).map Execution.args ++ w.ran := by
  obtain ⟨tree, noted, heq⟩ := w.perform_keeps r
  rw [heq]

theorem perform_quiet (hquiet : w.Quiet) (r : Request) : (w.perform r).2.Quiet := by
  intro ran args tree
  rw [(w.perform_frame r).2.2]
  exact hquiet ran args tree

end World

/-- Every plan keeps a tree of files and folders. -/
theorem Plan.run_regular {α : Type} (p : Plan α) {w : World} (h : w.Regular) (hquiet : w.Quiet) :
    (p.run w).2.Regular := by
  induction p generalizing w with
  | done a => exact h
  | ask r next ih => exact ih _ (World.perform_regular h hquiet r) (World.perform_quiet hquiet r)

theorem Plan.run_clock {α : Type} (p : Plan α) (w : World) : (p.run w).2.clock = w.clock := by
  induction p generalizing w with
  | done a => rfl
  | ask r next ih => exact (ih _ _).trans (w.perform_frame r).2.1

/-- The programs are the same wherever a plan is looked at. -/
theorem Plan.passes_programs {α : Type} {p : Plan α} {w v : World} (h : p.Passes w v) :
    v.programs = w.programs := by
  induction h with
  | here => rfl
  | @torn r next w v h =>
    cases r with
    | fill p bytes =>
      obtain ⟨k, rfl⟩ := h
      exact (w.perform_frame _).2.2
    | _ => exact h.elim
  | @later r next w v _ ih => exact ih.trans (w.perform_frame r).2.2

theorem Plan.run_here {α : Type} (p : Plan α) (w : World) : (p.run w).2.here = w.here := by
  induction p generalizing w with
  | done a => rfl
  | ask r next ih => exact (ih _ _).trans (w.perform_frame r).1

end ConfigSteward
