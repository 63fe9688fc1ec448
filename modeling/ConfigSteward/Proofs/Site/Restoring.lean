import ConfigSteward.Proofs.Site.Effects

/-!
# Restoring a backup

Restoring puts what the backup holds in the file that the backup goes back to, after what the file
held was backed up, and touches no other file.
-/
namespace ConfigSteward

open Plan

/-- Every program returns a result and touches no file. -/
def World.Answers (w : World) : Prop :=
  ∀ ran args tree, ∃ result, w.programs ran args tree = (.ok result, tree)

theorem World.Answers.quiet {w : World} (h : w.Answers) : w.Quiet := by
  intro ran args tree
  obtain ⟨result, hresult⟩ := h ran args tree
  rw [hresult]

namespace Site

open World

variable {s : Site} {w u v : World} {name : String} {target : Path} {content bytes : Bytes}

theorem does_safetyBackup (w : World) (target : Path) :
    (s.safetyBackup target).run.Does (fun _ => True) w fun r u es => es = [] ∧
      s.BacksUp w target r u ∧ (r = .ok none → ∃ f, w.look target = .error f) := by
  have hfailed (failure : Failure) : s.BacksUp w target (.error failure) w :=
    .without (.inl rfl) fun _ h => (by cases h)
  rw [safetyBackup]
  refine does_andThen.mpr (Task.does_ofFile.mpr (FileTask.does_leads.mpr ⟨trivial, ?_⟩))
  rcases hleads : FileTask.leadsIn w target _ with f | (_ | _)
  · exact ⟨trivial, rfl, hfailed _, fun h => by cases h⟩
  · refine does_pure.mpr ⟨trivial, rfl, .without (.inl rfl) fun _ h => (by cases h), fun _ => ?_⟩
    rcases hlook : w.look target with f | status
    · exact ⟨f, rfl⟩
    · rw [FileTask.leadsIn, hlook] at hleads
      cases hleads
  · refine does_andThen.mpr (Task.does_ofFileOr.mpr (FileTask.does_read.mpr ⟨trivial, ?_⟩))
    rcases hread : w.read target with f | current
    · exact ⟨trivial, rfl, hfailed _, fun h => by cases h⟩
    obtain ⟨backup, place, hcreate⟩ := s.store.does_create w target.name current
    refine does_andThen.mpr (hcreate.mono (fun _ _ => trivial) ?_)
    intro r u es hcreates
    have hbacks := BacksUp.of_creates hread hcreates
    cases r with
    | ok b => exact does_pure.mpr ⟨trivial, by simp [hcreates.1], hbacks, fun h => by cases h⟩
    | error failure => exact ⟨trivial, hcreates.1, hbacks, fun h => by cases h⟩

/-- How restoring a backup may end. -/
inductive RestoreEnds (s : Site) (w : World) (name : String) :
    Except Failure Restored → World → List Execution → Prop where
  | missed (failure : Failure) : RestoreEnds s w name (.error failure) w []
  | unbacked {target : Path} {u : World} (failure : Failure)
      (goes : s.restoreTarget name = .ok target)
      (backs : s.BacksUp w target (.error failure) u) : RestoreEnds s w name (.error failure) u []
  | unwritten {target : Path} {backup : Option String} {u x : World} (message : String)
      (goes : s.restoreTarget name = .ok target) (backs : s.BacksUp w target (.ok backup) u)
      (dug : u.Dug target.parent x) :
      RestoreEnds s w name (.error (.refused (.fileAccess message))) x []
  | checked {target : Path} {content : Bytes} {backup : Option String} {u y x : World}
      {goal : Place} {mode : Nat} {args : List String}
      (hargs : args = s.controller.validateArgs (some s.config.text))
      (found : Name.Safe name ∧ Name.endsIn Name.backupSuffix name = true)
      (goes : s.restoreTarget name = .ok target)
      (holds : w.read (s.store.pathOf name) = .ok content)
      (backs : s.BacksUp w target (.ok backup) u)
      (alone : backup = none → ∃ f, w.look target = .error f)
      (replaces : u.Replaces target y goal mode)
      (hx : x = { y with tree := y.tree.put goal (.file content mode .lately) }) :
      RestoreEnds s w name
        ((x.replyTo args).map fun result =>
          ⟨target.name, target, backup, result.exitOk, result.output⟩)
        (x.hasRun args) [⟨x, args, x.replyTo args⟩]

theorem does_restoreBackup_ends (hw : w.Regular) (hresolved : ".." ∉ s.store.folder)
    (hquiet : w.Quiet) (name : String) :
    (s.restoreBackup name).run.Does (fun _ => True) w (s.RestoreEnds w name) := by
  rw [restoreBackup]
  refine does_andThen.mpr ((Store.does_get hw hresolved name).mono (fun _ _ => trivial) ?_)
  rintro (failure | content) v es ⟨rfl, rfl, hget⟩
  · exact ⟨trivial, .missed failure⟩
  obtain ⟨hsafe, hends, hread⟩ := hget content rfl
  rcases htarget : s.restoreTarget name with refusal | target
  · exact Task.does_refuse.mpr ⟨trivial, .missed _⟩
  refine does_andThen.mpr (does_pure.mpr ⟨trivial, ?_⟩)
  refine Lock.does_hold _ trivial (fun _ => .missed _) ?_
  refine does_andThen.mpr ((does_safetyBackup v target).mono (fun _ _ => trivial) ?_)
  rintro (failure | backup) u es ⟨rfl, hbacks, halone⟩
  · exact ⟨trivial, .unbacked failure htarget hbacks⟩
  have hu := hbacks.regular hw
  refine does_andThen.mpr (Task.does_ofFileOr.mpr
    ((FileTask.does_replace hu.sound target content).mono (fun _ _ => trivial) ?_))
  rintro (f | ⟨⟩) x es ⟨rfl, hresult⟩
  · exact ⟨trivial, .unwritten _ htarget hbacks hresult.1⟩
  obtain ⟨y, goal, mode, hreplaces, rfl⟩ := hresult
  generalize hx : { y with tree := y.tree.put goal (.file content mode .lately) } = x
  have hquiet' : x.Quiet := by
    obtain ⟨t, -, rfl⟩ := hreplaces.dug
    rw [← hx, World.Quiet, hbacks.programs_eq]
    exact hquiet
  have hchecked := RestoreEnds.checked rfl ⟨hsafe, hends⟩ htarget hread hbacks
    (fun hnone => halone (congrArg Except.ok hnone)) hreplaces hx.symm
  refine does_andThen.mpr ((Controller.does_run hquiet' _).mono (fun _ _ => trivial) ?_)
  rintro r v es ⟨rfl, rfl, rfl⟩
  rcases hreply : x.replyTo _ with failure | result
  · rw [hreply] at hchecked
    exact ⟨trivial, hchecked⟩
  · rw [hreply] at hchecked
    exact does_pure.mpr ⟨trivial, hchecked⟩

/-- What restoring a backup did, once it returns. -/
structure Restores (s : Site) (w : World) (name : String) (restored : Restored) (v : World) :
    Prop where
  found : Name.Safe name ∧ Name.endsIn Name.backupSuffix name = true
  target : s.restoreTarget name = .ok restored.path
  content : ∃ content, w.read (s.store.pathOf name) = .ok content ∧
    v.read restored.path = .ok content
  exchanges : s.Exchanges w restored.path restored.backup v
  unbacked : restored.backup = none → ∀ bytes, w.read restored.path ≠ .ok bytes

/-- Restoring a backup restores it or fails with all files as they were. -/
theorem does_restoreBackup (hs : s.Sited w) (hanswers : w.Answers) (name : String) :
    (s.restoreBackup name).run.Does (fun _ => True) w fun r v _ =>
      Balks w r v ∨ ∃ restored, r = .ok restored ∧ s.Restores w name restored v := by
  refine (s.does_restoreBackup_ends hs.regular hs.resolved hanswers.quiet name).mono
    (fun _ _ => trivial) fun r v es hends => ?_
  cases hends with
  | missed failure => exact .inl (.same _ failure)
  | unbacked failure _ backs => exact .inl (backs.balks hs failure)
  | unwritten message goes backs dug =>
    obtain ⟨t, ht, rfl⟩ := dug
    exact .inl ⟨⟨_, rfl⟩, ((backs.alters hs).mono fun _ hq => hq.2).trans (.of_dug ⟨t, ht, rfl⟩),
      backs.notes⟩
  | @checked target content backup u y x goal mode args _ found goes holds backs alone replaces hx =>
    have hu := backs.regular hs.regular
    have hframe : y.noted = u.noted ∧ y.programs = u.programs := by
      obtain ⟨t, -, rfl⟩ := replaces.dug
      exact ⟨rfl, rfl⟩
    have hanswers' : x.Answers := by
      rw [hx, World.Answers, hframe.2, backs.programs_eq]
      exact hanswers
    obtain ⟨result, hanswer⟩ := hanswers' x.ran args x.tree
    have hreply : x.replyTo args = .ok result := by rw [World.replyTo, hanswer]
    rw [hreply]
    refine .inr ⟨_, rfl, ⟨found, goes, ⟨content, holds, ?_⟩, ⟨⟨u, backs, ?_, ?_⟩⟩, fun hnone => ?_⟩⟩
    · rw [← replaces.read_new hu content, ← hx]
      exact (World.Alike.read_eq ⟨rfl, rfl⟩ _)
    · rw [← hframe.1, World.hasRun, hx]
    · rw [← (backs.alters hs).here]
      have halters := replaces.alters hu content
      rw [← hx] at halters
      exact halters.trans (.of_alike ⟨rfl, rfl⟩)
    · intro bytes hread
      obtain ⟨f, hlook⟩ := alone hnone
      obtain ⟨hlands, mode, changed, hfile⟩ := hs.regular.of_read hread
      cases hlook.symm.trans (hlands.look_file hfile)

end Site
end ConfigSteward
