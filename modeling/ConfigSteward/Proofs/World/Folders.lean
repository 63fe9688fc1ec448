import ConfigSteward.Proofs.Files.Dug
import ConfigSteward.Proofs.World.Calls

/-!
# Ensuring that a folder stands

`ensureFolder` makes folders at vacant places on the way and does nothing else, whether or not it
comes to its end; where the folder stands it changes nothing.
-/
namespace ConfigSteward

open Plan

namespace World

variable {w v u : World} {p : Path} {place : Place}

/-- The path leads to a folder. -/
def Stands (w : World) (p : Path) : Prop :=
  ∃ place, w.tree.walk true w.here p = .ok place ∧ w.tree.get? place = some .folder

/-- Folders were made on the way to the end of a path. -/
def Dug (w : World) (p : Path) (v : World) : Prop :=
  ∃ t, w.tree.Dug (p.start w.here) p.parts t ∧ v = { w with tree := t }

theorem Dug.refl (w : World) (p : Path) : w.Dug p w := ⟨w.tree, .still, rfl⟩

theorem Dug.trans (h : w.Dug p v) (h' : v.Dug p u) : w.Dug p u := by
  obtain ⟨t, ht, rfl⟩ := h
  obtain ⟨t', ht', rfl⟩ := h'
  exact ⟨t', ht.trans ht', rfl⟩

theorem Dug.of_parent (h : w.Dug p.parent v) : w.Dug p v := by
  obtain ⟨t, ht, rfl⟩ := h
  exact ⟨t, ht.longer (List.dropLast_prefix _), rfl⟩

theorem Dug.here_eq (h : w.Dug p v) : v.here = w.here := by
  obtain ⟨t, -, rfl⟩ := h
  rfl

theorem Dug.kept {q : Place} (h : w.Dug p v) (hq : w.tree.get? q ≠ none) :
    v.tree.get? q = w.tree.get? q := by
  obtain ⟨t, ht, rfl⟩ := h
  exact ht.kept hq

theorem Dug.below (h : w.Dug p v) : w.tree.Below v.tree := by
  obtain ⟨t, ht, rfl⟩ := h
  exact ht.grows

theorem Lands.dug (h : w.Lands p place) (hnone : w.tree.get? place = none) :
    w.Dug p { w with tree := w.tree.put place .folder } :=
  ⟨_, .one (Tree.walk_eq_ok_iff.mp h.walk).2 hnone, rfl⟩

/-- A new folder at a vacant place stands. -/
theorem Lands.stands (h : w.Lands p place) :
    World.Stands { w with tree := w.tree.put place .folder } p := by
  have hset := Tree.put_sets (t := w.tree) h.ne_nil .folder
  have hbelow := hset.below h.leaf (.inr (Tree.skeleton_eq_folder_iff.mpr hset.self))
  exact ⟨place, Tree.walk_mono hbelow h.followed, hset.self⟩

theorem Stands.mono (h : w.Stands p) (hbelow : w.tree.Below v.tree) (hhere : v.here = w.here) :
    v.Stands p := by
  obtain ⟨place, hwalk, hfolder⟩ := h
  exact ⟨place, hhere ▸ Tree.walk_mono hbelow hwalk, hbelow.folder hfolder⟩

/-- Nothing is made on the way to a folder that stands. -/
theorem Stands.eq_of_dug (h : w.Stands p) (hw : w.Sound) (hdug : w.Dug p v) : v = w := by
  obtain ⟨place, hwalk, hfolder⟩ := h
  obtain ⟨t, ht, rfl⟩ := hdug
  rw [ht.eq_of_stands hw.tree (Tree.get?_start hw.here p) (Tree.walk_eq_ok_iff.mp hwalk).2 hfolder]

/-- No entry can be made where a folder stands. -/
theorem Stands.add_eq (h : w.Stands p) (node : Node) :
    w.add p node = (fault .alreadyThere p, w) := by
  obtain ⟨place, hwalk, hfolder⟩ := h
  obtain ⟨hlen, hleads⟩ := Tree.walk_eq_ok_iff.mp hwalk
  obtain ⟨q, hq, hend⟩ := hleads.stop_at_link
  have hthere : w.tree.get? q ≠ none := by
    rcases hend with rfl | ⟨target, hend⟩
    · simp [hfolder]
    · simp [hend]
  have hwalk' := Tree.walk_eq_ok_iff.mpr ⟨hlen, hq⟩
  simp only [add, vacancy, hwalk', if_pos (Option.isSome_iff_ne_none.mpr hthere)]
  rfl

end World

namespace FileTask

variable {w : World} {p : Path}

private theorem leadsIn_folder_iff :
    leadsIn w p (fun status => status.kind = .folder) = .ok true ↔ w.Stands p := by
  unfold leadsIn World.look World.onNode World.Stands
  rcases hwalk : w.tree.walk true w.here p with cause | place
  · by_cases hcause : cause.leadsNowhere
    · simp [World.fault, hcause]
    · simp [World.fault, hcause]
  · rcases hget : w.tree.get? place with _ | _ | _ | target <;>
      simp [hget, World.fault, World.statusOf, Cause.leadsNowhere]

theorem leadsIn_file_iff :
    leadsIn w p (fun status => status.kind = .file) = .ok true ↔ ∃ bytes, w.read p = .ok bytes := by
  simp only [World.read_eq_ok_iff, leadsIn, World.look, World.onNode]
  rcases hwalk : w.tree.walk true w.here p with cause | place
  · by_cases hcause : cause.leadsNowhere <;> simp [World.fault, hcause]
  · rcases hget : w.tree.get? place with _ | _ | _ | target <;>
      simp [hget, World.fault, World.statusOf, Cause.leadsNowhere]

theorem does_orFolder (f : Fault) :
    (orFolder p f).run.Does (· = w) w fun r v es => v = w ∧ es = [] ∧ (r = .ok () ↔ w.Stands p) := by
  rw [orFolder, isFolder, does_andThen, does_leads]
  refine ⟨rfl, ?_⟩
  rcases h : leadsIn w p (fun status => status.kind = .folder) with g | found
  · simp [← leadsIn_folder_iff, h]
  · cases found
    · simp [← leadsIn_folder_iff, h]
    · simp [← leadsIn_folder_iff, h]

/-- What making folders on the way to a path does. -/
def MakesFolder (w : World) (p : Path) (r : Except Fault Unit) (v : World) (es : List Execution) :
    Prop := es = [] ∧ w.Dug p v ∧ (r = .ok () → v.Stands p)

theorem does_orFolder_dug {v : World} (hv : w.Dug p v) (f : Fault) :
    (orFolder p f).run.Does (w.Dug p) v (MakesFolder w p) := by
  refine (does_orFolder f).mono ?_ ?_
  · rintro u rfl
    exact hv
  · rintro r u es ⟨rfl, hes, hr⟩
    exact ⟨hes, hv, hr.mp⟩

theorem does_makeOneFolder {v : World} (hv : w.Dug p v) :
    (makeOneFolder p).run.Does (w.Dug p) v (MakesFolder w p) := by
  rw [makeOneFolder, does_andThen, does_attempt, does_makeFolder]
  rcases v.add_cases p .folder with ⟨place, hlands, hnone, hadd⟩ | ⟨f, -, hadd⟩
  · have hdug := hv.trans (hlands.dug hnone)
    rw [hadd]
    exact ⟨hv, hdug, does_pure.mpr ⟨hdug, rfl, hdug, fun _ => hlands.stands⟩⟩
  · rw [hadd]
    refine ⟨hv, hv, ?_⟩
    by_cases hf : f.cause = .noEntry
    · simp [hf, hv, MakesFolder]
    · simpa [hf] using does_orFolder_dug hv f

theorem does_ensureFolder (w : World) (p : Path) :
    (ensureFolder p).run.Does (w.Dug p) w (MakesFolder w p) := by
  induction p using ensureFolder.induct with
  | case1 p ih =>
    rw [ensureFolder, does_andThen, does_attempt, does_makeFolder]
    have hw := World.Dug.refl w p
    rcases w.add_cases p .folder with ⟨place, hlands, hnone, hadd⟩ | ⟨f, -, hadd⟩
    · have hdug := hlands.dug hnone
      rw [hadd]
      exact ⟨hw, hdug, does_pure.mpr ⟨hdug, rfl, hdug, fun _ => hlands.stands⟩⟩
    · rw [hadd]
      refine ⟨hw, hw, ?_⟩
      by_cases hf : f.cause = .noEntry
      · by_cases hbare : p.isBare = true
        · simp [hf, hbare, hw, MakesFolder]
        · have hparent := ih hbare
          simp only [hf, hbare, if_true]
          refine does_andThen.mpr (hparent.mono (fun v hv => hv.of_parent) ?_)
          rintro r v es ⟨rfl, hv, -⟩
          cases r with
          | ok => exact does_makeOneFolder hv.of_parent
          | error g => exact ⟨hv.of_parent, rfl, hv.of_parent, by simp⟩
      · simpa [hf] using does_orFolder_dug hw f

/-- A folder that stands is found without a change. -/
theorem does_ensureFolder_stands (h : w.Stands p) :
    (ensureFolder p).run.Does (· = w) w fun r v es => r = .ok () ∧ v = w ∧ es = [] := by
  rw [ensureFolder, does_andThen, does_attempt, does_makeFolder, h.add_eq]
  simp only [World.fault, reduceCtorEq, if_false]
  refine ⟨trivial, trivial, (does_orFolder _).mono (fun _ hv => hv) ?_⟩
  rintro r v es ⟨rfl, rfl, hr⟩
  exact ⟨hr.mpr h, rfl, rfl⟩

end FileTask
end ConfigSteward
