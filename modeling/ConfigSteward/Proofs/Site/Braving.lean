import ConfigSteward.Proofs.Backup.Braving
import ConfigSteward.Proofs.Save.Braving
import ConfigSteward.Proofs.Site.Effects

/-!
# Calls on a site amid mishaps

Until a call has run a program its calls to the files may fail. Then a save ends as `Save.Meets`
lists, a backup of the configuration was begun at most, and a backup that is deleted goes or stays.
-/
namespace ConfigSteward.Site

open Plan

variable {s : Site} {hazard : Hazard} {w v : World} {c : Call} {r : Except Failure Answer}

/-- What a task gives is made an answer. -/
theorem always_answer {α ω : Type} {told : World → (r : Request) → r.Reply → List ω} {task : Task α}
    {f : α → Answer} {Q : Except Failure α → World → List ω → Prop}
    (h : task.run.AlwaysIn hazard told w Q) :
    (task >>= fun a => pure (f a)).run.AlwaysIn hazard told w fun r v tail =>
      ∃ r', r = r'.map f ∧ Q r' v tail := by
  refine always_andThen.mpr (h.mono fun r v tail hQ => ?_)
  cases r with
  | ok a => exact always_pure.mpr ⟨.ok a, rfl, by simpa using hQ⟩
  | error failure => exact ⟨.error failure, rfl, hQ⟩

/-- A call that saves ends as its save does. -/
theorem braves_save {save : Save} (h : c.save? s = some save) (hw : w.Regular) (hquiet : w.Quiet)
    (hblatant : hazard.Blatant) (hceases : hazard.CeasesAfter w.ran.length) :
    (s.call c).run.Braves hazard w fun r v es => ∃ r', r = r'.map Answer.outcome ∧
      save.Meets hazard s.store s.controller w r' v es := by
  rw [call_of_save h]
  exact always_answer (Save.braves_run hw.sound (hw.steady save.path) hquiet hblatant hceases
    s.store s.controller)

/-- Reading and listing leave all as it was. -/
theorem mayEnd_reads (hc : c.Reads) (h : (s.call c).run.MayEnd hazard w r v) : v = w :=
  (h.satisfies (asking_call Idle.asking s hc hazard w)).elim fun _ hv => hv.1

/-- A test of the configuration runs a program first and touches no file. -/
theorem mayEnd_test (hquiet : w.Quiet) (hceases : hazard.CeasesAfter w.ran.length)
    (h : (s.call .testConfig).run.MayEnd hazard w r v) : w.Alike v := by
  have hdoes := does_answer (f := .tested)
    (Controller.does_run hquiet (s.controller.validateArgs (some s.config.text)))
  obtain ⟨next, hnext⟩ : ∃ next, (s.call .testConfig).run
      = ask (.run (s.controller.validateArgs (some s.config.text))) next := ⟨_, rfl⟩
  change (s.call .testConfig).run.Does _ w _ at hdoes
  rw [hnext] at hdoes h
  obtain ⟨-, -, -, -, rfl, -⟩ := h.satisfies (hdoes.braves_ran hceases)
  exact ⟨rfl, rfl⟩

/-- A backup of the configuration is the only new file. -/
theorem mayEnd_createBackup (hw : w.Regular) (hs : ".." ∉ s.store.folder)
    (h : (s.call .createBackup).run.MayEnd hazard w r v) : w.Alters v (s.store.Free w) := by
  have hsame : w.Alters w (s.store.Free w) := .of_alike (.refl w)
  have hbacks : s.createBackup.run.Leaves hazard w fun _ v _ => w.Alters v (s.store.Free w) := by
    refine Lock.always_hold _ (fun _ => hsame) ?_
    refine always_andThen.mpr (Task.always_attemptFile.mpr
      ((Idle.asking.asks (.read s.config) trivial hazard w).mono ?_))
    rintro (f | content) v marks ⟨rfl, rfl⟩
    · dsimp only
      split
      · exact hsame
      · exact hsame
    · refine always_andThen.mpr ((s.store.always_create v s.config.name content).mono ?_)
      rintro (failure | b) u marks hcreated
      · obtain ⟨-, -, hu⟩ := hcreated
        obtain rfl | rfl | ⟨-, hsafe, hbegins⟩ := hu
        · exact hsame
        · exact .of_alike (v.noting_alike _)
        · obtain ⟨name, place, k, hslot, rfl⟩ := hbegins.slot hsafe
          exact hslot.alters hw hs _
      · obtain ⟨-, -, place, hslot, rfl⟩ := hcreated
        exact hslot.alters hw hs _
  obtain ⟨-, -, -, halters⟩ := h.satisfies (always_answer hbacks)
  exact halters

theorem mayEnd_deleteBackup {name : String} (hw : w.Regular) (hs : ".." ∉ s.store.folder)
    (hblatant : hazard.Blatant) (h : (s.call (.deleteBackup name)).run.MayEnd hazard w r v) :
    w.Alters v s.store.Owns := by
  obtain hrun | ⟨failure, -, -, rfl⟩ :=
    ((s.store.falters_delete hblatant name).map fun _ => Answer.removed) w r v h
  · have hdoes := (does_answer (f := fun _ => .removed) (Store.does_delete hw hs name)).ends
    rw [← hrun] at hdoes
    obtain ⟨-, -, -, halters⟩ := hdoes
    exact halters.mono fun _ hq => hq.1
  · exact .of_alike (.refl v)

end ConfigSteward.Site
