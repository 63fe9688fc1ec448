import Mathlib
import ConfigSteward.Proofs.Backup.Bearing
import ConfigSteward.Proofs.World.Noon
import ConfigSteward.Proofs.World.Runs

/-!
# Runs of a store

Over runs of any length a store of backups does to its folder what the calls do to the map of its
snapshots.
-/
namespace ConfigSteward

open Plan

namespace Store

variable {s : Store} {w : World} {name : String}

/-! ### Runs -/

/-- A call with the time at which it is made. -/
structure Step where
  clock : Nat
  call : Call

/-- A proper call in a year of four digits. -/
structure Step.Fair (st : Step) : Prop where
  now : 1000 ≤ (Civil.ofSeconds (st.clock / 1000000)).year ∧
    (Civil.ofSeconds (st.clock / 1000000)).year ≤ 9999
  proper : st.call.Proper

def Step.meets (st : Step) (w : World) : World := { w with clock := st.clock }

/-- The calls of a store, step by step. -/
def calls (s : Store) : Calls Step (Except Failure Answer) where
  meets := Step.meets
  plan st := (s.call st.call).run

theorem reply_eq (s : Store) (w : World) (st : Step) :
    s.calls.reply w st = ((s.call st.call).run.run (st.meets w)).1 := rfl

theorem advance_eq (s : Store) (w : World) (st : Step) :
    s.calls.advance w st = ((s.call st.call).run.run (st.meets w)).2 := rfl

variable {hazard : Hazard} {perils : Calls.Perils} {st : Step} {steps : List Step}
  {r : Except Failure Answer} {u v : World}

/-- Whatever goes wrong in a step, a store that keeps backups keeps backups. -/
theorem Keeps.step (h : s.Keeps w) (hst : st.Fair) (hblatant : hazard.Blatant)
    (hend : (s.call st.call).run.MayEnd hazard (st.meets w) r v) :
    s.Keeps v ∧ (s.snapshots w.tree).Bears s hazard st.call r (s.snapshots v.tree) := by
  have hmeets : s.Keeps (st.meets w) := h.of_alike ⟨rfl, rfl⟩ h.noted
  have hproper := hst.proper
  cases hcall : st.call with
  | create artifact content =>
    rw [hcall] at hproper hend
    have hreading := hmeets.readingFor_valid hst.now.1 hst.now.2 artifact
    exact always_iff.mp (hmeets.bears_create hproper hreading) r v hend
  | get | delete | list =>
    rw [hcall] at hproper hend
    exact hmeets.bears_lookup hblatant trivial hproper hend

/-- Whatever goes wrong in a run of a store whose folder holds backups, every step is answered as the
map of its snapshots is, and changes them as the map changes, but for the ends that `Snapshots.Bears`
lists. -/
theorem refines_snapshots (h : s.Keeps w)
    (hperils : ∀ w hazard, perils w hazard → hazard.Blatant)
    (hsteps : ∀ st' ∈ steps ++ [st], st'.Fair) (hreach : s.calls.MayReach perils w steps u)
    (hanswer : s.calls.MayAnswer perils u st r v) :
    ∃ hazard, perils (st.meets u) hazard ∧
      (s.snapshots u.tree).Bears s hazard st.call r (s.snapshots v.tree) := by
  have hkeeps : s.Keeps u := by
    refine hreach.invariant h fun x y a hx st' hst' ⟨hazard, hhazard, hend⟩ => ?_
    have hfair := hsteps st' (List.mem_append_left _ hst')
    exact (hx.step hfair (hperils _ _ hhazard) hend).1
  obtain ⟨hazard, hhazard, hend⟩ := hanswer
  have hfair := hsteps st (by simp)
  exact ⟨hazard, hhazard, (hkeeps.step hfair (hperils _ _ hhazard) hend).2⟩

/-! ### A store in an empty folder -/

/-- A world with nothing but the folders above a place. -/
def emptyAt (place : Place) : World :=
  .atNoon (.spine place)

theorem keeps_emptyAt {place : Place} (hup : ".." ∉ place)
    (hplain : ∀ name ∈ place, Tree.Plain name)
    (hroom : place.path.text.utf8ByteSize ≤ longestPath) : Keeps ⟨place⟩ (emptyAt place) := by
  refine ⟨⟨Tree.spine_sound place, Tree.get?_nil _⟩, Tree.spine_distinct place, hup,
    World.flat_spine rfl hplain hroom, fun name hname => ?_, nofun⟩
  exact absurd (Tree.spine_empty place name) hname

def shelf : Store := ⟨["b"]⟩

def noonBackup : Step := ⟨World.noon, .create "a" [97]⟩

def noonReading : Step := ⟨World.noon, .get "a.20240501_120000.backup"⟩

/-- A backup that was made at noon is read. -/
theorem refines_snapshots_noon :
    shelf.Keeps (emptyAt shelf.folder) ∧ (∀ st ∈ [noonBackup] ++ [noonReading], st.Fair) ∧
      (shelf.snapshots (shelf.calls.after (emptyAt shelf.folder) [noonBackup]).tree).Answers
        (.get "a.20240501_120000.backup") (.ok (.content [97]))
        (shelf.snapshots
          (shelf.calls.after (emptyAt shelf.folder) ([noonBackup] ++ [noonReading])).tree) := by
  have hkeeps : shelf.Keeps (emptyAt shelf.folder) := by
    refine keeps_emptyAt (by decide) (fun name hname => ?_) (by decide)
    rw [List.mem_singleton.mp hname]
    exact ⟨by decide, by decide⟩
  have hfair : ∀ st ∈ [noonBackup] ++ [noonReading], st.Fair := by
    intro st hst
    rcases List.mem_cons.mp hst with rfl | hst
    · exact ⟨by decide, .of_isSafe (by decide) (by decide)⟩
    · rw [List.mem_singleton.mp hst]
      exact ⟨by decide, fun _ => by decide⟩
  have hreply : shelf.calls.reply (shelf.calls.after (emptyAt shelf.folder) [noonBackup]) noonReading
      = .ok (.content [97]) := by cbv
  have hnear : ¬ shelf.Strays
      (shelf.snapshots (shelf.calls.after (emptyAt shelf.folder) [noonBackup]).tree)
        noonReading.call := by
    rintro ⟨-, hfar⟩
    exact absurd (show longestPath < _ from hfar) (by decide)
  let calm : Calls.Perils := fun _ hazard => hazard = .none
  have hcalm : ∀ w, ∃ hazard, calm w hazard := fun _ => ⟨_, rfl⟩
  have hblatant : ∀ w hazard, calm w hazard → hazard.Blatant :=
    fun _ _ hhazard => hhazard ▸ Hazard.blatant_none
  obtain ⟨_, rfl, hbears⟩ := refines_snapshots hkeeps hblatant hfair
    (Calls.mayReach_after hcalm (emptyAt shelf.folder) [noonBackup])
    (Calls.mayAnswer_reply hcalm _ noonReading)
  rw [hreply] at hbears
  rw [Calls.after_concat]
  exact ⟨hkeeps, hfair, hbears.answers_of_none hnear⟩

def farName : String := String.ofList (List.replicate 194 'd')

theorem utf8ByteSize_farName : farName.utf8ByteSize = 194 := by
  refine (Name.utf8ByteSize_ofList_of_safe fun x hx => ?_).trans List.length_replicate
  rw [List.eq_of_mem_replicate hx]
  decide

theorem plain_farName : Tree.Plain farName := by
  refine ⟨fun hup => ?_, by rw [utf8ByteSize_farName]; decide⟩
  have hsize := utf8ByteSize_farName
  rw [hup] at hsize
  exact absurd hsize (by decide)

/-- A store in a folder whose path has 4095 bytes. -/
def farShelf : Store := ⟨List.replicate 21 farName⟩

/-- A store in a folder at the end of the longest path cannot tell that it has no such backup. -/
theorem lookup_fails_far : farShelf.Keeps (emptyAt farShelf.folder) ∧ Name.IsBackup "a.backup" ∧
    "a.backup".length ≤ longestName ∧
      farShelf.snapshots (emptyAt farShelf.folder).tree "a.backup" = none ∧
      farShelf.calls.reply (emptyAt farShelf.folder) ⟨World.noon, .get "a.backup"⟩
        ≠ .error (.refused (noBackup "a.backup")) := by
  have hplain : ∀ name ∈ farShelf.folder, Tree.Plain name := fun name hname =>
    List.eq_of_mem_replicate hname ▸ plain_farName
  have hroom := Place.text_path_replicate 21 farName [] (by simp)
  rw [utf8ByteSize_farName, List.append_nil] at hroom
  have hkeeps : farShelf.Keeps (emptyAt farShelf.folder) :=
    keeps_emptyAt (fun hup => (hplain _ hup).1 rfl) hplain (Nat.le_of_eq hroom)
  have hname : Name.IsBackup "a.backup" := ⟨.of_isSafe (by decide) (by decide), by decide⟩
  have hfar : longestPath < (farShelf.pathOf "a.backup").text.utf8ByteSize := by
    have hsize := Place.text_path_replicate 21 farName ["a.backup"] (by simp)
    rw [utf8ByteSize_farName] at hsize
    exact hsize ▸ (by decide)
  refine ⟨hkeeps, hname, by decide, ?_, ?_⟩
  · exact hkeeps.snapshots_eq_none_iff.mpr (Tree.spine_empty _ _)
  · have hmeets : farShelf.Keeps { emptyAt farShelf.folder with clock := World.noon } :=
      hkeeps.of_alike ⟨rfl, rfl⟩ hkeeps.noted
    obtain ⟨-, f, hreply⟩ := (hmeets.does_strays (c := .get "a.backup") ⟨hname, hfar⟩).ends
    rw [show farShelf.calls.reply (emptyAt farShelf.folder) ⟨World.noon, .get "a.backup"⟩ = _ from hreply]
    nofun

end Store
end ConfigSteward
