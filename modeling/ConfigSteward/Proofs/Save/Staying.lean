import ConfigSteward.Proofs.Save.Links
import ConfigSteward.Proofs.World.Moving

/-!
# Saves whose content stays

Programs may change the tree as they like. A save that ends with its content in place is read back if
the programs that it ran left the file as they found it, unless missing folders had to be made for the
path and these lead it through the very link that it ends at.
-/
namespace ConfigSteward

open Plan

namespace Execution

/-- The world that a program leaves. -/
def after (e : Execution) : World := (e.before.perform (.run e.args)).2

/-- A program leaves a tree in order, and what the path reads as it was. -/
structure Spares (e : Execution) (p : Path) : Prop where
  sound : e.before.Sound → e.after.Sound
  read : e.after.read p = e.before.read p

/-- A program that changes nothing spares every path. -/
theorem spares_of_quiet {e : Execution} (h : e.before.Quiet) (p : Path) : e.Spares p := by
  have hafter : e.after = e.before.hasRun e.args := by
    change { e.before with
      tree := (e.before.programs e.before.ran e.args e.before.tree).2
      ran := e.args :: e.before.ran } = _
    rw [h, World.hasRun]
  have hsame : e.before.Alike e.after := hafter ▸ ⟨rfl, rfl⟩
  exact ⟨hsame.sound, hsame.read_eq p⟩

end Execution

/-- Every program is run among the same programs. -/
theorem Plan.programs_of_executed {α : Type} {p : Plan α} {w : World} {e : Execution}
    (h : e ∈ p.executions w) : e.before.programs = w.programs := by
  induction p generalizing w with
  | done => cases h
  | ask r next ih =>
    rcases List.mem_append.mp h with h | h
    · cases r <;> cases h
      · rfl
      · contradiction
    · exact (ih _ h).trans (w.perform_frame r).2.2

namespace World

variable {w u v : World} {p : Path} {goal : Place} {bytes : Bytes} {es : List Execution}

/-- Where folders of the path are missing, making them does not lead the path through the link that it
ends at. -/
def Straight (w : World) (p : Path) : Prop :=
  ¬ w.Stands p.parent → ∀ u q target, w.Dug p.parent u → u.tree.walk false u.here p = .ok q →
    u.tree.get? q = some (.link target) → u.StandsWithout q p.parent

/-- What can be read lies in a folder, at the end of the path or behind a link there. -/
theorem stands_of_read (hw : w.Sound) (hread : w.read p = .ok bytes) : w.Stands p.parent := by
  rw [read, onNode] at hread
  rcases hwalk : w.tree.walk true w.here p with cause | place
  · simp [hwalk, fault] at hread
  have hplace : w.tree.get? place ≠ some .folder := by
    intro hfolder
    simp [hwalk, hfolder, fault] at hread
  obtain ⟨hlen, hleads⟩ := Tree.walk_eq_ok_iff.mp hwalk
  obtain ⟨q, hq, hend⟩ := hleads.stop_at_link
  have hne : w.tree.get? q ≠ some .folder := by
    rcases hend with rfl | ⟨target, hlink⟩
    · exact hplace
    · simp [hlink]
  obtain ⟨-, r, hr, hfolder, -⟩ := split_of_walk hw (Tree.walk_eq_ok_iff.mpr ⟨hlen, hq⟩) hne
  exact ⟨r, hr, hfolder⟩

theorem straight_of_read (hw : w.Sound) (hread : w.read p = .ok bytes) : w.Straight p :=
  fun hnot => absurd (stands_of_read hw hread) hnot

/-- A path without `..` does not come back to anything that is there. -/
theorem straight_of_no_up (hw : w.Sound) (hup : ".." ∉ p.parts) : w.Straight p := by
  intro hnot u q target hdug hwalk hlink
  rcases hdug.fresh hw hup hwalk with rfl | hnone
  · obtain ⟨-, r, hr, hfolder, -⟩ := split_of_walk hw hwalk (by simp [hlink])
    exact absurd ⟨r, hr, hfolder⟩ hnot
  · rw [hnone] at hlink
    cases hlink

/-- From one world to another the programs that were run spare the path, and so its content stays. -/
def Keeps (w v : World) (p : Path) (es : List Execution) : Prop :=
  (∀ e ∈ es, e.Spares p) → w.Sound → v.Sound ∧ v.read p = w.read p

theorem Keeps.refl (w : World) (p : Path) (es : List Execution) : w.Keeps w p es :=
  fun _ hw => ⟨hw, rfl⟩

theorem Keeps.append {es' : List Execution} (h : w.Keeps v p es) (h' : v.Keeps u p es') :
    w.Keeps u p (es ++ es') := by
  intro hspares hw
  obtain ⟨hleft, hright⟩ := List.forall_mem_append.mp hspares
  obtain ⟨hv, hread⟩ := h hleft hw
  obtain ⟨hu, hread'⟩ := h' hright hv
  exact ⟨hu, hread'.trans hread⟩

end World

namespace Save

open World

variable {s : Save} {store : Store} {c : Controller} {w u : World} {prior : Option Bytes}
  {name : String} {place goal : Place} {o : Outcome} {bytes : Bytes}

theorem does_resultOf_keeps (w : World) (p : Path) (args : List String) :
    (resultOf (Controller.run args)).run.Does (fun _ => True) w fun r v es =>
      (∃ result, r = .ok result) ∧ w.Keeps v p es := by
  have hkeeps : w.Keeps (w.perform (.run args)).2 p (w.executed (.run args) ++ []) := by
    intro hspares hw
    have hspare := hspares ⟨w, args, (w.perform (.run args)).1⟩ List.mem_cons_self
    exact ⟨hspare.sound hw, hspare.read⟩
  rw [resultOf, Controller.run]
  refine does_andThen.mpr (Task.does_attempt.mpr (does_request.mpr
    ⟨trivial, fun _ _ => trivial, trivial, ?_⟩))
  rcases (w.perform (.run args)).1 with failure | result
  · exact does_pure.mpr ⟨trivial, ⟨_, rfl⟩, hkeeps⟩
  · exact does_pure.mpr ⟨trivial, ⟨_, rfl⟩, hkeeps⟩

theorem does_reloadStep_keeps (w : World) (o : Outcome) :
    (s.reloadStep c o).run.Does (fun _ => True) w fun _ v es => w.Keeps v s.path es := by
  rw [reloadStep]
  by_cases hreload : s.reload = true
  · rw [if_pos hreload]
    refine does_andThen.mpr ((does_resultOf_keeps w s.path c.reloadArgs).mono
      (fun _ _ => trivial) ?_)
    rintro r v es ⟨⟨result, rfl⟩, hkeeps⟩
    rw [← List.append_nil es] at hkeeps
    dsimp only
    split
    · exact does_pure.mpr ⟨trivial, hkeeps⟩
    split
    · exact does_pure.mpr ⟨trivial, hkeeps⟩
    · exact does_pure.mpr ⟨trivial, hkeeps⟩
  · rw [if_neg hreload]
    exact does_pure.mpr ⟨trivial, .refl w _ _⟩

/-- What cannot be taken back is left as it is. -/
theorem does_putBack_fails (hw : w.Sound) (hread : w.read s.path = .ok bytes)
    (prior : Option Bytes) :
    (putBack s.path prior).run.Does (fun _ => True) w fun r v es =>
      es = [] ∧ ((∃ f, r = .error f) → v = w) := by
  cases prior with
  | none =>
    rw [putBack, unlinkIfThere]
    refine does_andThen.mpr (FileTask.does_attempt.mpr (FileTask.does_unlink.mpr
      ⟨trivial, trivial, ?_⟩))
    rcases w.unlink_cases s.path with ⟨f, hunlink⟩ | ⟨place, hunlink⟩
    · rw [hunlink]
      dsimp only
      split
      · exact does_pure.mpr ⟨trivial, rfl, by rintro ⟨f, ⟨⟩⟩⟩
      · exact does_throw.mpr ⟨trivial, rfl, fun _ => rfl⟩
    · rw [hunlink]
      exact does_pure.mpr ⟨trivial, rfl, by rintro ⟨f, ⟨⟩⟩⟩
  | some content =>
    refine (FileTask.does_replace hw s.path content).mono (fun _ _ => trivial) ?_
    rintro (f | ⟨⟩) v es ⟨rfl, hresult⟩
    · exact ⟨rfl, fun _ => (stands_of_read hw hread).eq_of_dug hw hresult.1⟩
    · exact ⟨rfl, by rintro ⟨f, ⟨⟩⟩⟩

/-- The content is still applied where it could not be taken back. -/
theorem does_rollBack_keeps (hw : w.Sound) (hread : w.read s.path = .ok bytes)
    (prior : Option Bytes) (o : Outcome) :
    (s.rollBack prior o).run.Does (fun _ => True) w fun r v es =>
      es = [] ∧ ∀ o', r = .ok o' → o'.applied = true → v = w := by
  rw [rollBack]
  refine does_andThen.mpr (Task.does_attemptFile.mpr
    ((does_putBack_fails hw hread prior).mono (fun _ _ => trivial) ?_))
  rintro (f | ⟨⟩) v es ⟨rfl, hfails⟩
  · exact does_pure.mpr ⟨trivial, rfl, fun _ _ _ => hfails ⟨f, rfl⟩⟩
  · refine does_pure.mpr ⟨trivial, rfl, ?_⟩
    rintro o' ⟨⟩ ⟨⟩

/-- A save from some step on ends with the content that the path reads, if it is still applied. -/
def LeavesRead (p : Path) (bytes : Bytes) (r : Except Failure Outcome) (v : World)
    (es : List Execution) : Prop :=
  (∀ e ∈ es, e.Spares p) → ∀ o, r = .ok o → o.applied = true → v.Sound ∧ v.read p = .ok bytes

theorem does_checkStep_keeps (hw : w.Sound) (hread : w.read s.path = .ok bytes)
    (prior : Option Bytes) (o : Outcome) :
    (s.checkStep c prior o).run.Does (fun _ => True) w (LeavesRead s.path bytes) := by
  rw [checkStep]
  refine does_andThen.mpr ((does_resultOf_keeps w s.path (s.checkArgs c)).mono
    (fun _ _ => trivial) ?_)
  rintro r v es ⟨⟨result, rfl⟩, hkeeps⟩
  have hback (o : Outcome) : (s.rollBack prior o).run.Does (fun _ => True) v fun r u es' =>
      LeavesRead s.path bytes r u (es ++ es') := by
    by_cases hspares : ∀ e ∈ es, e.Spares s.path
    · obtain ⟨hv, hread'⟩ := hkeeps hspares hw
      refine (does_rollBack_keeps hv (hread'.trans hread) prior o).mono (fun _ hu => hu) ?_
      rintro r u es' ⟨rfl, hleft⟩ - o' ho happlied
      rw [hleft o' ho happlied]
      exact ⟨hv, hread'.trans hread⟩
    · refine ⟨fun _ _ => trivial, fun hall => absurd (fun e he => ?_) hspares⟩
      exact hall e (List.mem_append_left _ he)
  dsimp only
  split
  · refine (does_reloadStep_keeps v _).mono (fun _ hu => hu) ?_
    rintro r u es' hkeeps' hspares - - -
    obtain ⟨hu, hread'⟩ := (hkeeps.append hkeeps') hspares hw
    exact ⟨hu, hread'.trans hread⟩
  split
  · exact hback _
  · exact hback _

/-- Once the missing folders are made, the path gets to the place of the new content without what was
there. -/
theorem Puts.past (puts : s.Puts store w prior name place u goal) (hw : w.Sound)
    (hstraight : w.Straight s.path) : u.StandsWithout goal s.path.parent := by
  rcases hgoal : u.tree.skeleton goal with _ | _ | _ | target
  · exact (World.Lands.stands_parent ⟨puts.walk, hgoal⟩ (puts.sound hw)).without hgoal
  · exact absurd hgoal Tree.skeleton_ne_file
  · exact absurd (Tree.skeleton_eq_folder_iff.mp hgoal) puts.noFolder
  · obtain ⟨t, hdug, hwalk, hsame, -⟩ := puts.without_backup
    have hlink := Tree.skeleton_eq_link_iff.mp ((hsame goal).symm.trans hgoal)
    by_cases hstands : w.Stands s.path.parent
    · obtain rfl : t = w.tree := congrArg World.tree (hstands.eq_of_dug hw hdug)
      exact (puts.at_link hw hwalk hlink).2.2
    · have hnil : goal ≠ [] := by
        rintro rfl
        simp at hgoal
      exact (hstraight hstands _ goal target hdug hwalk hlink).of_skeleton hnil hsame
        puts.dug.here_eq

theorem does_writeStep_keeps (hw : w.Sound) (hstraight : w.Straight s.path)
    (backs : s.Backs store w prior name place) (o : Outcome) (ho : o.applied = false) :
    (s.writeStep c prior o).run.Does (fun _ => True) (s.stored w prior place)
      (LeavesRead s.path s.content) := by
  rw [writeStep]
  refine does_andThen.mpr (Task.does_attemptFile.mpr
    ((FileTask.does_replace (backs.sound hw) s.path s.content).mono (fun _ _ => trivial) ?_))
  rintro (f | ⟨⟩) v es ⟨rfl, hresult⟩
  · refine does_pure.mpr ⟨trivial, fun _ o' hok happlied => ?_⟩
    cases hok
    cases ho.symm.trans happlied
  · obtain ⟨u, goal, mode, hreplaces, rfl⟩ := hresult
    have puts : s.Puts store w prior name place u goal :=
      ⟨backs, hreplaces.dug, hreplaces.walk, hreplaces.noFolder⟩
    have hu := puts.sound hw
    have hlands := (puts.past hw hstraight).lands_put hu puts.walk puts.noFolder s.content mode
      .lately
    have hsound := (World.put_sound hu puts.walk puts.noFolder s.content mode .lately).2
    exact does_checkStep_keeps hsound
      (hlands.read_file (Tree.put_sets hlands.ne_nil _).self) prior _

theorem does_backupStep_keeps (hw : w.Sound) (hstraight : w.Straight s.path) (store : Store)
    (c : Controller) (hprior : Prior w s.path prior) :
    (s.backupStep store c prior).run.Does (fun _ => True) w (LeavesRead s.path s.content) := by
  obtain ⟨name, place, hcreate⟩ := store.does_create w s.artifact (prior.getD [])
  rw [backupStep]
  refine does_andThen.mpr (Task.does_attempt.mpr (hcreate.mono (fun _ _ => trivial) ?_))
  rintro r v es ⟨rfl, ⟨refusal, rfl, -⟩ | ⟨hslot, rfl, rfl⟩⟩
  · refine does_pure.mpr ⟨trivial, ?_⟩
    rintro - o ⟨⟩ ⟨⟩
  · exact does_writeStep_keeps hw hstraight ⟨hprior, hslot⟩ _ rfl

/-- However the programs answer and whatever they do to the tree: if the new content is applied in the
end and the programs spared it, the path reads it. -/
theorem does_run_keeps (hw : w.Sound) (hstraight : w.Straight s.path) (store : Store)
    (c : Controller) :
    (s.run store c).run.Does (fun _ => True) w (LeavesRead s.path s.content) := by
  refine Lock.does_hold _ trivial (fun q => ?_) ?_
  · rintro - o ⟨⟩
  rw [steps]
  refine does_andThen.mpr (Task.does_attemptFile.mpr
    ((does_priorContent w s.path).mono (fun _ _ => trivial) ?_))
  rintro r v es ⟨rfl, rfl, ⟨prior, rfl, hprior⟩ | ⟨f, rfl⟩⟩
  · exact does_backupStep_keeps hw hstraight store c hprior
  · refine does_pure.mpr ⟨trivial, ?_⟩
    rintro - o ⟨⟩ ⟨⟩

end Save
end ConfigSteward
