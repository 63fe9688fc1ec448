import ConfigSteward.Proofs.Backup.Hindered
import ConfigSteward.Proofs.World.Bounded
import ConfigSteward.Proofs.World.Locks

/-!
# Backups beyond the limit

Under a limit on the size of files a backup that is larger is refused, and what fits of it stays at its
place.
-/
namespace ConfigSteward

open Plan

variable {α : Type} {w : World} {p : Path} {place : Place} {bytes : Bytes} {limit : Nat}

/-- Where the limit is shown there is a file, so no new one is made there. -/
theorem World.ne_limitsPlace (hlimit : w.tree.sizeLimit? = some limit)
    (hvacancy : w.vacancy p = .ok place) : place ≠ limitsPlace := by
  rintro rfl
  rw [Tree.sizeLimit?, (vacancy_eq_ok_iff.mp hvacancy).2] at hlimit
  cases hlimit

namespace FileTask

theorem runBounded_create (w : World) (p : Path) :
    (create p).run.runBounded w = w.add p (.file [] World.plainMode .lately) := rfl

theorem runBounded_createWith_error {f : Fault} (h : w.vacancy p = .error f) :
    (createWith p bytes).run.runBounded w = (.error f, w) := by
  have hcreate : (create p).run.runBounded w = (.error f, w) := by
    rw [runBounded_create, World.add, h]
  rw [createWith, runBounded_andThen_error hcreate]

/-- A new file gets what the limit lets in of its content. If that is not all there is a fault. -/
theorem runBounded_createWith (hlimit : w.tree.sizeLimit? = some limit)
    (hvacancy : w.vacancy p = .ok place) (bytes : Bytes) :
    (createWith p bytes).run.runBounded w
      = (if limit < bytes.length then .error (.tooLarge p) else .ok (),
          w.withFile place (bytes.take limit)) := by
  have hlands : w.Lands p place := (World.vacancy_eq_ok_iff.mp hvacancy).1
  have hthere : (w.withFile place []).Lands p place := hlands.at_put _ _ _
  have hcreate : (create p).run.runBounded w = (.ok (), w.withFile place []) := by
    rw [runBounded_create, World.add, hvacancy, World.withFile]
  have hstill : (w.withFile place []).tree.sizeLimit? = some limit :=
    (Tree.sizeLimit?_put (World.ne_limitsPlace hlimit hvacancy) _).trans hlimit
  have hpart : (w.withFile place []).perform (.fill p (bytes.take limit))
      = (.ok (), w.withFile place (bytes.take limit)) := by
    refine (hthere.alter_file (hlands.get_put _) _).trans ?_
    simp only [World.withFile, Tree.put_put]
  rw [createWith, runBounded_andThen_ok hcreate]
  change (w.withFile place []).performBounded (.fill p bytes) = _
  simp only [World.performBounded, hstill, World.fillUpTo, hpart]

end FileTask

/-- Under the lock of a path that can be resolved a task runs as it does without. -/
theorem Lock.runBounded_hold {task : Task α} (h : w.tree.resolve w.here p = .ok place) :
    (hold [p] task).run.runBounded w = task.run.runBounded w := by
  have hresolve : w.performBounded (.resolve p) = (.ok place, w) := congrArg (·, w) h
  rw [hold_singleton_run, runBounded_ask, hresolve, runBounded_ask, Task.andThen_run,
    runBounded_bind]
  rfl

namespace Store

variable {s : Store} {artifact : String} {reading : Civil} {counter tries k : Nat}

theorem runBounded_nextReading (w : World) (artifact : String) :
    (nextReading artifact).run.runBounded w = (.ok (w.readingFor artifact), w.noting artifact) := by
  have hnext : (nextReading artifact).run.Always w fun r v _ =>
      r = .ok (w.readingFor artifact) ∧ v = w.noting artifact :=
    (always_nextReading w artifact).mono fun _ _ _ h => ⟨h.1, h.2.1⟩
  exact Prod.ext hnext.runBounded.1 hnext.runBounded.2

theorem runBounded_createFrom (hlimit : w.tree.sizeLimit? = some limit)
    (hlarge : limit < bytes.length) (hle : counter ≤ k) (hlt : k < counter + tries)
    (hoccupied : s.OccupiedTo w artifact reading counter k)
    (hvacancy : w.vacancy (s.pathOf (Name.writeBackup artifact reading k)) = .ok place) :
    (s.createFrom artifact bytes reading counter tries).run.runBounded w
      = (.error (.refused (unwritten (Name.writeBackup artifact reading k)
          (.tooLarge (s.pathOf (Name.writeBackup artifact reading k))))),
        w.withFile place (bytes.take limit)) := by
  induction tries generalizing counter with
  | zero => omega
  | succ tries ih =>
    rw [createFrom]
    rcases Nat.eq_or_lt_of_le hle with rfl | hlater
    · have hmade := FileTask.runBounded_createWith hlimit hvacancy bytes
      rw [if_pos hlarge] at hmade
      exact runBounded_andThen_ok (runBounded_lift hmade)
    · obtain ⟨q, hwalk, hthere⟩ := hoccupied counter le_rfl hlater
      have htaken : (FileTask.createWith (s.pathOf (Name.writeBackup artifact reading counter))
          bytes).run.runBounded w = (World.fault .alreadyThere _, w) :=
        FileTask.runBounded_createWith_error (World.vacancy_of_taken hwalk hthere)
      refine (runBounded_andThen_ok (runBounded_lift htaken)).trans ?_
      exact ih hlater (by omega) fun j hj => hoccupied j (by omega)

/-- A backup larger than the limit is refused, and the part that fits stays under the first free name
of its second. -/
theorem runBounded_create {name : String} (hsafe : Name.isSafe artifact = true)
    (hlimit : w.tree.sizeLimit? = some limit) (hlarge : limit < bytes.length)
    (hk : k ≤ lastCounter) (hname : name = Name.writeBackup artifact (w.readingFor artifact) k)
    (hoccupied : s.OccupiedTo (w.noting artifact) artifact (w.readingFor artifact) 0 k)
    (hvacancy : w.vacancy (s.pathOf name) = .ok place) :
    (s.create artifact bytes).run.runBounded w
      = (.error (.refused (unwritten name (.tooLarge (s.pathOf name)))),
        (w.noting artifact).withFile place (bytes.take limit)) := by
  subst hname
  rw [create, if_pos hsafe, runBounded_andThen_ok (runBounded_nextReading w artifact)]
  exact runBounded_createFrom (w := w.noting artifact) hlimit hlarge k.zero_le (by omega) hoccupied
    hvacancy

end Store

end ConfigSteward
