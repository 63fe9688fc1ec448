import ConfigSteward.Proofs.Backup.Counting
import ConfigSteward.Proofs.World.Hindered

/-!
# Backups amid mishaps

A backup is made at its final place and filled there. If the making fails there is no file. If the
filling fails the file stays with what it got of its content, since nothing takes it away again:
`World.Begun` is the world then, and `Store.Begins` says that the file has the first free name.
-/
namespace ConfigSteward

open Plan

variable {hazard : Hazard} {w v : World} {p : Path} {bytes : Bytes}

/-- A new file at the vacant place that a path names holds a first part of the content. -/
def World.Begun (w : World) (p : Path) (bytes : Bytes) (v : World) : Prop :=
  ∃ place k, w.vacancy p = .ok place ∧ v = w.withFile place (bytes.take k)

namespace FileTask

/-- A new file is filled in full at the vacant place that the path names, or there is a fault: one
that tells why there is no such place, or one that comes before there is a file or once it was
begun. -/
theorem always_createWith (w : World) (p : Path) (bytes : Bytes) :
    (createWith p bytes).run.Leaves hazard w fun r v marks =>
      match r with
      | .ok () => marks = [.filled p bytes] ∧
          ∃ place, w.vacancy p = .ok place ∧ v = w.withFile place bytes
      | .error f => marks = [] ∧ (w.vacancy p = .error f ∧ v = w ∨
          f.Untimely ∧ (hazard.strikes w (.create p) f ∧ v = w ∨
            hazard.Tears ∧ w.Begun p bytes v)) := by
  rw [createWith]
  refine always_andThen.mpr (always_create.mpr
    ⟨?_, fun f hf => ⟨rfl, .inr ⟨hazard.untimely hf, .inl ⟨hf, rfl⟩⟩⟩⟩)
  rcases hvacancy : w.vacancy p with f | place
  · have hadd : w.add p (.file [] World.plainMode .lately) = (.error f, w) := by
      rw [World.add, hvacancy]
    rw [hadd]
    exact ⟨rfl, .inl ⟨rfl, rfl⟩⟩
  have hadd : w.add p (.file [] World.plainMode .lately) = (.ok (), w.withFile place []) := by
    rw [World.add, hvacancy, World.withFile]
  have hlands := (World.vacancy_eq_ok_iff.mp hvacancy).1
  have hthere : (w.withFile place []).Lands p place := hlands.at_put _ _ _
  have hfill (content : Bytes) : (w.withFile place []).alter p
      (fun _ mode _ => .file content mode .lately) = (.ok (), w.withFile place content) := by
    rw [hthere.alter_file (hlands.get_put _)]
    simp only [World.withFile, Tree.put_put]
  rw [hadd]
  refine always_fill.mpr ⟨?_, fun f hf => ?_⟩
  · rw [hfill]
    exact ⟨rfl, place, rfl, rfl⟩
  · have htears : hazard.Tears := ⟨_, _, _, _, hf⟩
    exact ⟨⟨rfl, .inr ⟨hazard.untimely hf, .inr ⟨htears, place, 0, hvacancy, rfl⟩⟩⟩, fun k =>
      ⟨rfl, .inr ⟨hazard.untimely hf, .inr
        ⟨htears, place, k, hvacancy, congrArg Prod.snd (hfill _)⟩⟩⟩⟩

end FileTask

namespace Store

variable {s : Store} {artifact : String} {content : Bytes}

/-- A backup was begun under the first free name of a second. -/
def Begins (s : Store) (w : World) (artifact : String) (reading : Civil) (bytes : Bytes)
    (counter tries : Nat) (v : World) : Prop :=
  ∃ k, counter ≤ k ∧ k < counter + tries ∧ s.OccupiedTo w artifact reading counter k ∧
    w.Begun (s.pathOf (Name.writeBackup artifact reading k)) bytes v

theorem always_nextReading (w : World) (artifact : String) :
    (nextReading artifact).run.Leaves hazard w fun r v marks =>
      r = .ok (w.readingFor artifact) ∧ v = w.noting artifact ∧ marks = [] := by
  have hnote (reading : Civil) (hreading : w.readingFor artifact = reading) :
      (Task.request (.note artifact reading) >>= fun _ => pure reading : Task Civil).run.Leaves hazard w
        fun r v marks => r = .ok (w.readingFor artifact) ∧ v = w.noting artifact ∧ marks = [] := by
    subst hreading
    exact always_andThen.mpr ((Task.always_sure (r := .note artifact _) fun _ => rfl).mpr
      ⟨rfl, rfl, rfl⟩)
  rw [nextReading]
  refine always_andThen.mpr ((Task.always_sure (r := .clock) fun _ => rfl).mpr ?_)
  refine always_andThen.mpr ((Task.always_sure (r := .latest artifact) fun _ => rfl).mpr ?_)
  generalize hlatest : ((w.perform .clock).2.perform (.latest artifact)).1 = latest
  have hfind : (w.noted.find? (·.1 = artifact)).map (·.2) = latest := hlatest
  cases latest with
  | none => exact hnote _ (by rw [World.readingFor, hfind]; rfl)
  | some last => exact hnote _ (by rw [World.readingFor, hfind]; rfl)

/-- How making a backup ends amid mishaps: it is there in full, or the call is refused and it was
begun at most. -/
def Created (hazard : Hazard) (s : Store) (w : World) (artifact : String) (content : Bytes)
    (r : Except Failure Backup) (v : World) (marks : List Mark) : Prop :=
  match r with
  | .ok b => marks = [.filled (s.pathOf b.name) content] ∧
      b = ⟨b.name, artifact, some (w.readingFor artifact), content.length⟩ ∧
      ∃ place, s.Slot w artifact b.name place ∧ v = (w.noting artifact).withFile place content
  | .error failure => marks = [] ∧
      (∃ refusal, failure = .refused refusal ∧
        (Name.isSafe artifact = true → ∃ message, refusal = .backup message)) ∧
      (v = w ∨ v = w.noting artifact ∨
        hazard.Tears ∧ Name.isSafe artifact = true ∧ s.Begins (w.noting artifact) artifact
          (w.readingFor artifact) content 0 (lastCounter + 1) v)

theorem always_createFrom (s : Store) (w : World) (content : Bytes)
    (hsafe : Name.isSafe artifact = true) (counter tries : Nat)
    (hcounter : counter + tries = lastCounter + 1)
    (hoccupied : s.OccupiedTo (w.noting artifact) artifact (w.readingFor artifact) 0 counter) :
    (s.createFrom artifact content (w.readingFor artifact) counter tries).run.Leaves hazard
      (w.noting artifact) (Created hazard s w artifact content) := by
  induction tries generalizing counter with
  | zero => exact ⟨rfl, ⟨_, rfl, fun _ => ⟨_, rfl⟩⟩, .inr (.inl rfl)⟩
  | succ tries ih =>
    rw [createFrom]
    refine always_andThen.mpr (Task.always_attemptFile.mpr
      ((FileTask.always_createWith _ _ _).mono ?_))
    rintro (f | ⟨⟩) v marks hresult
    · obtain ⟨rfl, hfault⟩ := hresult
      by_cases hf : f.cause = .alreadyThere
      · obtain ⟨hvacancy, rfl⟩ | ⟨huntimely, -⟩ := hfault
        · have hnext : s.OccupiedTo (w.noting artifact) artifact (w.readingFor artifact) 0
              (counter + 1) := by
            obtain ⟨cause, a, other⟩ := f
            cases hf
            intro j hle hlt
            rcases Nat.lt_succ_iff_lt_or_eq.mp hlt with hj | rfl
            · exact hoccupied j hle hj
            · exact World.taken_of_vacancy hvacancy
          simpa [hf] using ih (counter + 1) (by omega) hnext
        · exact absurd hf huntimely.2
      · simp only [hf, if_false]
        refine ⟨rfl, ⟨_, rfl, fun _ => ⟨_, rfl⟩⟩, .inr ?_⟩
        obtain ⟨-, rfl⟩ | ⟨-, ⟨-, rfl⟩ | ⟨htears, hbegun⟩⟩ := hfault
        · exact .inl rfl
        · exact .inl rfl
        · exact .inr ⟨htears, hsafe, counter, Nat.zero_le _, by omega, hoccupied, hbegun⟩
    · obtain ⟨rfl, place, hvacancy, rfl⟩ := hresult
      obtain ⟨hlands, hnone⟩ := World.vacancy_eq_ok_iff.mp hvacancy
      exact ⟨rfl, rfl, place, ⟨hsafe, ⟨counter, by omega, rfl⟩,
        (w.noting_alike artifact).symm.lands hlands, hnone⟩, rfl⟩

theorem always_create (s : Store) (w : World) (artifact : String) (content : Bytes) :
    (s.create artifact content).run.Leaves hazard w (Created hazard s w artifact content) := by
  rw [create]
  split
  · next hsafe =>
    refine always_andThen.mpr ((always_nextReading w artifact).mono ?_)
    rintro r v marks ⟨rfl, rfl, rfl⟩
    exact s.always_createFrom w content hsafe 0 (lastCounter + 1) (by omega) .empty
  · next hunsafe => exact ⟨rfl, ⟨_, rfl, fun hsafe => absurd hsafe hunsafe⟩, .inl rfl⟩

/-- A backup that was begun has one of the names of its second and a vacant place to itself. -/
theorem Begins.slot (hsafe : Name.isSafe artifact = true)
    (h : s.Begins (w.noting artifact) artifact (w.readingFor artifact) bytes 0
      (lastCounter + 1) v) :
    ∃ name place k, s.Slot w artifact name place ∧
      v = (w.noting artifact).withFile place (bytes.take k) := by
  obtain ⟨counter, -, hlt, -, place, k, hvacancy, rfl⟩ := h
  obtain ⟨hlands, hnone⟩ := World.vacancy_eq_ok_iff.mp hvacancy
  exact ⟨_, place, k, ⟨hsafe, ⟨counter, by omega, rfl⟩,
    (w.noting_alike artifact).symm.lands hlands, hnone⟩, rfl⟩

end Store
end ConfigSteward
