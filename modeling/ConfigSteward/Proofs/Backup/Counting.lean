import ConfigSteward.Proofs.Backup.Creation

/-!
# Counting through the names of one second

To make a backup, the store goes through the counters of a second until it comes to a name that is
free. `Tries` says how that search may end: all names were occupied, one was free, or the path of one
could not be followed.
-/
namespace ConfigSteward

open Plan

namespace Store

variable {s : Store} {w v : World} {artifact : String} {content : Bytes} {reading : Civil}
  {counter tries : Nat} {r : Except Failure Backup}

def tooMany (artifact : String) (reading : Civil) : Refusal :=
  .backup s!"Too many backups of {artifact} within {Stamp.write reading}; try again in a second"

def unwritten (name : String) (f : Fault) : Refusal :=
  .backup s!"Error writing backup {name}: {f.message}"

theorem unwritten_ne_tooMany (name : String) (f : Fault) (artifact : String) (reading : Civil) :
    unwritten name f ≠ tooMany artifact reading := by
  intro h
  have hmessage := congrArg (fun r : Refusal => (r.message.getD "").toList.head?) h
  simp only [unwritten, tooMany, Refusal.backup, Option.getD_some, String.toList_append,
    List.head?_append] at hmessage
  have hfirst : some 'E' = some 'T' := hmessage
  exact absurd hfirst (by decide)

/-- The path of a name leads to an entry. -/
def Occupied (s : Store) (w : World) (name : String) : Prop :=
  ∃ place, w.tree.walk false w.here (s.pathOf name) = .ok place ∧ w.tree.get? place ≠ none

/-- Up to a counter all names of a second are occupied. -/
def OccupiedTo (s : Store) (w : World) (artifact : String) (reading : Civil) (counter k : Nat) :
    Prop :=
  ∀ j, counter ≤ j → j < k → s.Occupied w (Name.writeBackup artifact reading j)

/-- How the search for a free name may end, and the world that it leaves. -/
inductive Tries (s : Store) (w : World) (artifact : String) (content : Bytes) (reading : Civil)
    (counter tries : Nat) : Except Failure Backup → World → Prop where
  | full (occupied : s.OccupiedTo w artifact reading counter (counter + tries)) :
      Tries s w artifact content reading counter tries
        (.error (.refused (tooMany artifact reading))) w
  | made {k : Nat} {place : Place} (bound : k < counter + tries)
      (occupied : s.OccupiedTo w artifact reading counter k)
      (vacant : w.vacancy (s.pathOf (Name.writeBackup artifact reading k)) = .ok place) :
      Tries s w artifact content reading counter tries
        (.ok ⟨Name.writeBackup artifact reading k, artifact, some reading, content.length⟩)
        (w.withFile place content)
  | unwritten {k : Nat} {f : Fault} (bound : k < counter + tries)
      (occupied : s.OccupiedTo w artifact reading counter k)
      (fault : w.vacancy (s.pathOf (Name.writeBackup artifact reading k)) = .error f)
      (other : f.cause ≠ .alreadyThere) :
      Tries s w artifact content reading counter tries
        (.error (.refused (unwritten (Name.writeBackup artifact reading k) f))) w

theorem OccupiedTo.cons {k : Nat} (h : s.OccupiedTo w artifact reading (counter + 1) k)
    (hfirst : s.Occupied w (Name.writeBackup artifact reading counter)) :
    s.OccupiedTo w artifact reading counter k := by
  intro j hj hjk
  rcases Nat.eq_or_lt_of_le hj with rfl | hlt
  · exact hfirst
  · exact h j hlt hjk

theorem OccupiedTo.empty : s.OccupiedTo w artifact reading counter counter :=
  fun _ hj hj' => absurd hj' (Nat.not_lt.mpr hj)

/-- Where the first name is occupied the search goes on with the next one. -/
theorem Tries.next (h : s.Tries w artifact content reading (counter + 1) tries r v)
    (hfirst : s.Occupied w (Name.writeBackup artifact reading counter)) :
    s.Tries w artifact content reading counter (tries + 1) r v := by
  have hbound : counter + 1 + tries = counter + (tries + 1) := by omega
  cases h with
  | full occupied => exact .full (hbound ▸ occupied.cons hfirst)
  | made bound occupied vacant => exact .made (by omega) (occupied.cons hfirst) vacant
  | unwritten bound occupied fault other =>
    exact .unwritten (by omega) (occupied.cons hfirst) fault other

theorem does_createFrom_tries (s : Store) (w : World) (artifact : String) (content : Bytes)
    (reading : Civil) (counter tries : Nat) :
    (s.createFrom artifact content reading counter tries).run.Does (fun _ => True) w fun r v _ =>
      s.Tries w artifact content reading counter tries r v := by
  induction tries generalizing counter with
  | zero => exact Task.does_refuse.mpr ⟨trivial, .full .empty⟩
  | succ tries ih =>
    rw [createFrom]
    rcases FileTask.does_createWith w (s.pathOf (Name.writeBackup artifact reading counter)) content
      with ⟨place, hlands, hvacant, hcreate⟩ | ⟨f, hvacancy, hcreate⟩
    · refine does_andThen.mpr (Task.does_attemptFile.mpr (hcreate.mono (fun _ _ => trivial) ?_))
      rintro r v es ⟨rfl, rfl, -⟩
      exact does_pure.mpr ⟨trivial, .made (by omega) .empty (hlands.vacancy_eq hvacant)⟩
    · refine does_andThen.mpr (Task.does_attemptFile.mpr (hcreate.mono (fun _ _ => trivial) ?_))
      rintro r v es ⟨rfl, rfl, -⟩
      by_cases hf : f.cause = .alreadyThere
      · simp only [hf, if_true]
        obtain ⟨cause, a, other⟩ := f
        cases hf
        exact (ih (counter + 1)).mono (fun _ hv => hv)
          fun _ _ _ hr => hr.next (World.taken_of_vacancy hvacancy)
      · simp only [hf, if_false]
        exact Task.does_refuse.mpr ⟨trivial, .unwritten (by omega) .empty hvacancy hf⟩

/-- Making a backup notes its reading and looks for a name within that second. -/
theorem does_create_tries (s : Store) (w : World) (hsafe : Name.isSafe artifact = true)
    (content : Bytes) :
    (s.create artifact content).run.Does (fun _ => True) w fun r v _ =>
      s.Tries (w.noting artifact) artifact content (w.readingFor artifact) 0 (lastCounter + 1) r v := by
  rw [create, if_pos hsafe]
  refine does_andThen.mpr ((does_nextReading w artifact).mono (fun _ _ => trivial) ?_)
  rintro r v es ⟨rfl, rfl, rfl⟩
  exact does_createFrom_tries s _ artifact content _ 0 (lastCounter + 1)

end Store
end ConfigSteward
