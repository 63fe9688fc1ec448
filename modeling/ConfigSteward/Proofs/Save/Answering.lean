import ConfigSteward.Proofs.Backup.Hindered
import ConfigSteward.Proofs.Save.Course
import ConfigSteward.Proofs.World.Endings

/-!
# What a save answers

A save whose lock can be taken answers with an outcome, whatever the files are and the programs do.
The outcome tells whether the new content stays.
-/
namespace ConfigSteward

open Plan

variable {α β : Type}

/-- However its calls fare, the task gives a result in every world. -/
def Task.Sure (task : Task α) : Prop :=
  ∀ hazard w, task.run.Leaves hazard w fun r _ _ => ∃ a, r = .ok a

namespace Task.Sure

theorem does {task : Task α} (h : task.Sure) (w : World) :
    task.run.Does (fun _ => True) w fun r _ _ => ∃ a, r = .ok a :=
  ⟨fun _ _ => trivial, (h .none w).run⟩

theorem pure (a : α) : (Pure.pure a : Task α).Sure := fun _ _ => always_pure.mpr ⟨a, rfl⟩

theorem andThen {task : Task α} {f : α → Task β} (h : task.Sure) (hf : ∀ a, (f a).Sure) :
    (task >>= f).Sure := by
  intro hazard w
  refine always_andThen.mpr ((h hazard w).mono ?_)
  rintro r v marks ⟨a, rfl⟩
  exact hf a hazard v

theorem attempt (task : Task α) : (Task.attempt task).Sure := fun _ _ =>
  Task.always_attempt.mpr (always_iff.mpr fun r _ _ => ⟨r, rfl⟩)

theorem attemptFile (task : FileTask α) : (Task.attemptFile task).Sure := fun _ _ =>
  Task.always_attemptFile.mpr (always_iff.mpr fun r _ _ => ⟨r, rfl⟩)

end Task.Sure

/-- The new content stays: the save succeeded, or failed after its check had passed. -/
def Outcome.Lasting (o : Outcome) : Prop :=
  o.success = true ∨ o.error = some .reloadFailed ∨ o.error = some .timeout ∧ o.validated = true

namespace Save

variable {s : Save} {store : Store} {c : Controller} {w : World} {prior : Option Bytes}
  {name : String} {place : Place} {o : Outcome}

theorem sure_resultOf (task : Task CommandResult) : (resultOf task).Sure := by
  refine .andThen (.attempt task) fun r => ?_
  cases r with
  | ok result => exact .pure _
  | error failure => exact .pure _

theorem sure_reloadStep (s : Save) (c : Controller) (o : Outcome) : (s.reloadStep c o).Sure := by
  unfold reloadStep
  split
  · refine .andThen (sure_resultOf _) fun result => ?_
    dsimp only
    repeat' split
    all_goals exact .pure _
  · exact .pure _

theorem sure_rollBack (s : Save) (prior : Option Bytes) (o : Outcome) : (s.rollBack prior o).Sure := by
  refine .andThen (.attemptFile _) fun r => ?_
  cases r with
  | ok => exact .pure _
  | error f => exact .pure _

theorem sure_checkStep (s : Save) (c : Controller) (prior : Option Bytes) (o : Outcome) :
    (s.checkStep c prior o).Sure := by
  refine .andThen (sure_resultOf _) fun result => ?_
  dsimp only
  split
  · exact s.sure_reloadStep c _
  · split
    · exact s.sure_rollBack prior _
    · exact s.sure_rollBack prior _

theorem sure_writeStep (s : Save) (c : Controller) (prior : Option Bytes) (o : Outcome) :
    (s.writeStep c prior o).Sure := by
  refine .andThen (.attemptFile _) fun r => ?_
  cases r with
  | ok => exact s.sure_checkStep c prior _
  | error f => exact .pure _

/-- What keeps a backup from being made is a refusal, and becomes the outcome. -/
theorem sure_backupStep (s : Save) (store : Store) (c : Controller) (prior : Option Bytes) :
    (s.backupStep store c prior).Sure := by
  intro hazard w
  refine always_andThen.mpr (Task.always_attempt.mpr
    ((store.always_create w s.artifact (prior.getD [])).mono ?_))
  rintro (failure | b) v marks hcreated
  · obtain ⟨-, ⟨refusal, rfl, -⟩, -⟩ := hcreated
    exact always_pure.mpr ⟨_, rfl⟩
  · exact s.sure_writeStep c prior _ hazard v

theorem sure_steps (s : Save) (store : Store) (c : Controller) : (s.steps store c).Sure := by
  refine .andThen (.attemptFile _) fun r => ?_
  cases r with
  | ok prior => exact s.sure_backupStep store c prior
  | error f => exact .pure _

/-- A save of a path that can be resolved answers with an outcome, however its calls fare. -/
theorem outcome_of_resolves {hazard : Hazard} {r : Except Failure Outcome} {v : World}
    (hplace : ∃ place, w.tree.resolve w.here s.path = .ok place)
    (hend : (s.run store c).run.MayEnd hazard w r v) : ∃ o, r = .ok o :=
  always_iff.mp (s.sure_steps store c hazard w) r v (Lock.mayEnd_of_hold (by simpa using hplace) hend)

/-! ### Whether the new content stays -/

theorem lasting_checked (s : Save) (name : String) (result : CommandResult) :
    (s.checked name result).Lasting := .inl rfl

theorem lasting_afterReload (s : Save) (name : String) (result result' : CommandResult) :
    ((s.checked name result).afterReload result').Lasting := by
  rcases hgood : result'.exitOk <;> rcases hlate : result'.timedOut <;>
    simp [Outcome.Lasting, Outcome.success, Outcome.afterReload, hgood, hlate]

theorem not_lasting_rejected (s : Save) (name : String) (result : CommandResult) :
    ¬ (s.rejected name result).Lasting := by
  rcases hlate : result.timedOut <;>
    simp [Outcome.Lasting, Outcome.success, hlate]

theorem not_lasting_of_error {e : Outcome.Error} (herror : o.error = some e)
    (he : e = .backupFailed ∨ e = .writeFailed) : ¬ o.Lasting := by
  rcases he with rfl | rfl <;> simp [Outcome.Lasting, Outcome.success, herror]

end Save
end ConfigSteward
