import ConfigSteward.Backup.Store
import ConfigSteward.Proofs.World.Temporary

/-!
# Making a backup

A backup comes up at a vacant place of the store's folder, under the first counter whose name is
free, and fills up there. If none can be made, no file changes.
-/
namespace ConfigSteward

open Plan

namespace World

variable {w : World}

/-- The world with a plain file written lately. -/
def withFile (w : World) (place : Place) (content : Bytes) : World :=
  { w with tree := w.tree.put place (.file content plainMode .lately) }

/-- The reading for the next backup of an artifact. -/
def readingFor (w : World) (artifact : String) : Civil :=
  match (w.noted.find? (·.1 = artifact)).map (·.2) with
  | some last => Civil.latest (Civil.ofSeconds (w.clock / 1000000)) last
  | none => Civil.ofSeconds (w.clock / 1000000)

/-- The world in which that reading is noted. -/
def noting (w : World) (artifact : String) : World :=
  { w with noted := (artifact, w.readingFor artifact) :: w.noted.filter (·.1 ≠ artifact) }

/-- The readings noted are those before, or one more was noted for a backup. -/
def Notes (w v : World) : Prop := v.noted = w.noted ∨ ∃ artifact, v.noted = (w.noting artifact).noted

theorem noting_alike (w : World) (artifact : String) : w.Alike (w.noting artifact) := ⟨rfl, rfl⟩

section
variable {v : World} {artifact : String} (h : v = w ∨ v = w.noting artifact)
include h

theorem alike_of_noting : w.Alike v := by
  rcases h with rfl | rfl
  · exact .refl v
  · exact w.noting_alike artifact

theorem notes_of_noting : w.Notes v := by
  rcases h with rfl | rfl
  · exact .inl rfl
  · exact .inr ⟨artifact, rfl⟩

end

end World

namespace FileTask

variable {w : World} {p : Path} {bytes : Bytes}

/-- A new file fills up at the vacant place that the path names, or nothing happens. -/
theorem does_createWith (w : World) (p : Path) (bytes : Bytes) :
    (∃ place, w.Lands p place ∧ w.tree.get? place = none ∧
      (createWith p bytes).run.Does (fun v => v = w ∨ ∃ k, v = w.withFile place (bytes.take k)) w
        fun r v es => r = .ok () ∧ v = w.withFile place bytes ∧ es = []) ∨
    ∃ f, w.vacancy p = .error f ∧
      (createWith p bytes).run.Does (· = w) w fun r v es => r = .error f ∧ v = w ∧ es = [] := by
  rw [createWith]
  rcases w.add_cases p (.file [] World.plainMode .lately) with
    ⟨place, hlands, hnone, hadd⟩ | ⟨f, hvacancy, hadd⟩
  · left
    have hset := Tree.put_sets (t := w.tree) hlands.ne_nil (.file [] World.plainMode .lately)
    have hthere : (w.withFile place []).Lands p place :=
      hlands.of_skeleton (hset.skeleton_eq hlands.leaf (Tree.skeleton_of_file hset.self)) rfl
    have hput (content : Bytes) : { w.withFile place [] with
        tree := (w.withFile place []).tree.put place (.file content World.plainMode .lately) }
          = w.withFile place content := by
      simp only [World.withFile, Tree.put_put]
    refine ⟨place, hlands, hnone, does_andThen.mpr (does_create.mpr ?_)⟩
    rw [hadd]
    refine ⟨.inl rfl, .inr ⟨0, rfl⟩, does_fill.mpr ?_⟩
    have halter (content : Bytes) : (w.withFile place []).alter p
        (fun _ mode _ => .file content mode .lately) = (.ok (), w.withFile place content) := by
      rw [hthere.alter_file hset.self, hput]
    change (fun v => v = w ∨ ∃ k, v = w.withFile place (bytes.take k)) (w.withFile place []) ∧ _
    refine ⟨.inr ⟨0, rfl⟩, fun k => ?_, ?_, ?_⟩
    · exact .inr ⟨k, congrArg Prod.snd (halter (bytes.take k))⟩
    · exact .inr ⟨bytes.length, by rw [List.take_length]; exact congrArg Prod.snd (halter bytes)⟩
    · exact ⟨congrArg Prod.fst (halter bytes), congrArg Prod.snd (halter bytes), rfl⟩
  · right
    refine ⟨f, hvacancy, does_andThen.mpr (does_create.mpr ?_)⟩
    rw [hadd]
    exact ⟨rfl, rfl, rfl, rfl, rfl, rfl⟩

end FileTask

namespace Store

variable {s : Store} {w v : World} {artifact name : String} {content : Bytes} {place : Place}

/-- A name for the next backup of an artifact and the vacant place that it has in the folder. -/
structure Slot (s : Store) (w : World) (artifact name : String) (place : Place) : Prop where
  safe : Name.isSafe artifact = true
  named : ∃ counter, counter ≤ lastCounter ∧
    name = Name.writeBackup artifact (w.readingFor artifact) counter
  lands : w.Lands (s.pathOf name) place
  vacant : w.tree.get? place = none

/-- The place is not directly in the store's folder. -/
def Outside (s : Store) (w : World) (place : Place) : Prop :=
  ∀ folder, w.tree.walk true w.here s.folder.path = .ok folder → place.dropLast ≠ folder

/-- A backup lies directly in the store's folder. -/
theorem Slot.split (h : s.Slot w artifact name place) (hw : w.Sound) :
    ∃ folder, w.tree.walk true w.here s.folder.path = .ok folder ∧
      w.tree.get? folder = some .folder ∧ place = folder ++ [name] := by
  obtain ⟨folder, hwalk, hfolder, -, hplace⟩ := h.lands.split hw
  rw [pathOf, Path.parent_child] at hwalk
  rw [pathOf, Path.name_child] at hplace
  exact ⟨folder, hwalk, hfolder, hplace⟩

theorem Slot.ne_outside (h : s.Slot w artifact name place) (hw : w.Sound) {q : Place}
    (hq : s.Outside w q) : q ≠ place := by
  obtain ⟨folder, hwalk, -, rfl⟩ := h.split hw
  rintro rfl
  exact hq folder hwalk (List.dropLast_concat)

theorem does_nextReading (w : World) (artifact : String) :
    (nextReading artifact).run.Does (fun v => v = w ∨ v = w.noting artifact) w
      fun r v es => r = .ok (w.readingFor artifact) ∧ v = w.noting artifact ∧ es = [] := by
  rw [nextReading]
  refine does_andThen.mpr (Task.does_request.mpr
    ((does_question (r := .clock) rfl (fun _ h => h) rfl).mpr ⟨.inl rfl, ?_⟩))
  refine does_andThen.mpr (Task.does_request.mpr
    ((does_question (r := .latest artifact) rfl (fun _ h => h) rfl).mpr ⟨.inl rfl, ?_⟩))
  have hnote (reading : Civil) (hreading : w.readingFor artifact = reading) :
      (Task.request (.note artifact reading) >>= fun _ => pure reading : Task Civil).run.Does
        (fun v => v = w ∨ v = w.noting artifact) w
        fun r v es => r = .ok (w.readingFor artifact) ∧ v = w.noting artifact ∧ es = [] := by
    subst hreading
    refine does_andThen.mpr (Task.does_request.mpr
      ((does_change (r := .note artifact _) (fun _ h => h) rfl).mpr ?_))
    exact ⟨.inl rfl, .inr rfl, does_pure.mpr ⟨.inr rfl, rfl, rfl, rfl⟩⟩
  generalize hlatest : (w.perform (.latest artifact)).1 = latest
  have hfind : (w.noted.find? (·.1 = artifact)).map (·.2) = latest := hlatest
  cases latest with
  | none => exact hnote _ (by rw [World.readingFor, hfind]; rfl)
  | some last => exact hnote _ (by rw [World.readingFor, hfind]; rfl)

/-- What making a backup does. -/
def Creates (s : Store) (w : World) (artifact : String) (content : Bytes) (name : String)
    (place : Place) (r : Except Failure Backup) (v : World) (es : List Execution) : Prop :=
  es = [] ∧
    ((∃ refusal, r = .error (.refused refusal) ∧ (v = w ∨ v = w.noting artifact)) ∨
      s.Slot w artifact name place ∧
        r = .ok ⟨name, artifact, some (w.readingFor artifact), content.length⟩ ∧
        v = (w.noting artifact).withFile place content)

/-- The worlds in the middle of making a backup. -/
def Creating (s : Store) (w : World) (artifact : String) (content : Bytes) (name : String)
    (place : Place) (v : World) : Prop :=
  w.Alike v ∨ s.Slot w artifact name place ∧ ∃ k, (w.withFile place (content.take k)).Alike v

theorem does_createFrom (s : Store) (w : World) (content : Bytes)
    (hsafe : Name.isSafe artifact = true) (counter tries : Nat)
    (hcounter : counter + tries ≤ lastCounter + 1) : ∃ name place,
    (s.createFrom artifact content (w.readingFor artifact) counter tries).run.Does
      (s.Creating w artifact content name place) (w.noting artifact)
      (s.Creates w artifact content name place) := by
  induction tries generalizing counter with
  | zero =>
    exact ⟨"", [], Task.does_refuse.mpr ⟨.inl ⟨rfl, rfl⟩, rfl, .inl ⟨_, rfl, .inr rfl⟩⟩⟩
  | succ tries ih =>
    let name := Name.writeBackup artifact (w.readingFor artifact) counter
    rcases FileTask.does_createWith (w.noting artifact) (s.pathOf name) content with
      ⟨place, hlands, hnone, hcreate⟩ | ⟨f, -, hcreate⟩
    · have hslot : s.Slot w artifact name place :=
        ⟨hsafe, ⟨counter, by omega, rfl⟩, (w.noting_alike artifact).symm.lands hlands, hnone⟩
      refine ⟨name, place, ?_⟩
      rw [createFrom]
      refine does_andThen.mpr (Task.does_attemptFile.mpr (hcreate.mono ?_ ?_))
      · rintro v (rfl | ⟨k, rfl⟩)
        · exact .inl ⟨rfl, rfl⟩
        · exact .inr ⟨hslot, k, rfl, rfl⟩
      · rintro r v es ⟨rfl, rfl, rfl⟩
        refine does_pure.mpr ⟨.inr ⟨hslot, content.length, ?_⟩, rfl, .inr ⟨hslot, rfl, rfl⟩⟩
        rw [List.take_length]
        exact ⟨rfl, rfl⟩
    · obtain ⟨name', place, hrest⟩ := ih (counter + 1) (by omega)
      refine ⟨name', place, ?_⟩
      rw [createFrom]
      refine does_andThen.mpr (Task.does_attemptFile.mpr (hcreate.mono ?_ ?_))
      · rintro v rfl
        exact .inl ⟨rfl, rfl⟩
      · rintro r v es ⟨rfl, rfl, rfl⟩
        by_cases hf : f.cause = .alreadyThere
        · simpa [hf] using hrest
        · simp only [hf, if_false]
          exact Task.does_refuse.mpr ⟨.inl ⟨rfl, rfl⟩, rfl, .inl ⟨_, rfl, .inr rfl⟩⟩

theorem does_create (s : Store) (w : World) (artifact : String) (content : Bytes) :
    ∃ name place, (s.create artifact content).run.Does (s.Creating w artifact content name place) w
      (s.Creates w artifact content name place) := by
  by_cases hsafe : Name.isSafe artifact = true
  · obtain ⟨name, place, hfrom⟩ := s.does_createFrom w content hsafe 0 (lastCounter + 1)
      (by omega)
    refine ⟨name, place, ?_⟩
    rw [create, if_pos hsafe]
    refine does_andThen.mpr ((does_nextReading w artifact).mono ?_ ?_)
    · rintro v (rfl | rfl)
      · exact .inl (.refl _)
      · exact .inl ⟨rfl, rfl⟩
    · rintro r v es ⟨rfl, rfl, rfl⟩
      exact hfrom
  · refine ⟨"", [], ?_⟩
    rw [create, if_neg hsafe]
    exact Task.does_refuse.mpr ⟨.inl (.refl w), rfl, .inl ⟨_, rfl, .inl rfl⟩⟩

end Store
end ConfigSteward
