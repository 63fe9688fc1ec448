import ConfigSteward.Proofs.Backup.Entries
import ConfigSteward.Proofs.Name.Distinct

/-!
# Names that are given again

A store looks for the first name that is free in its folder and remembers no other. So a name stands
for the backup that it was given to as long as no call deletes its entry, and after that the next
backup of the same artifact within the same second may take it over.
-/
namespace ConfigSteward

open Plan

namespace Store

variable {s : Store} {w v : World} {artifact name : String} {content : Bytes} {b : Backup} {st : Step}

/-- What is read under the name of an entry is the content of the entry. -/
theorem content_of_reply (hlands : w.Lands (s.pathOf name) (s.folder ++ [name]))
    (hbytes : w.tree.bytesAt (s.folder ++ [name]) = some content) {clock : Nat} {bytes : Bytes}
    (hread : s.calls.reply w ⟨clock, .get name⟩ = .ok (.content bytes)) : bytes = content := by
  let u : World := { w with clock }
  have halike : w.Alike u := ⟨rfl, rfl⟩
  have hlands' := halike.lands hlands
  obtain ⟨mode, changed, hfile⟩ := Tree.bytesAt_eq_some_iff.mp hbytes
  have hstands : u.tree.resolve u.here (s.pathOf name) = .ok (s.folder ++ [name]) :=
    Tree.resolve_of_leads (Tree.walk_eq_ok_iff.mp hlands'.followed).2
  have hdoes : (s.call (.get name)).run.Does (fun _ => True) u fun r _ _ =>
      r = .ok (.content bytes) → bytes = content := by
    refine does_andThen.mpr (does_andThen.mpr ((does_find_place s u name).mono
      (fun _ _ => trivial) ?_))
    rintro (failure | path) v es ⟨rfl, hpath⟩
    · exact ⟨trivial, trivial, nofun⟩
    · obtain ⟨place, hresolve, -, rfl⟩ := hpath path rfl
      obtain rfl := Except.ok.inj (hstands.symm.trans hresolve)
      refine Task.does_ofFileOr.mpr (FileTask.does_read.mpr ⟨trivial, ?_⟩)
      rw [show (s.folder ++ [name] : Place).path = s.pathOf name from rfl, hlands'.read_file hfile]
      refine does_pure.mpr ⟨trivial, fun hcontent => ?_⟩
      cases hcontent
      rfl
  exact hdoes.ends hread

/-- As long as no call deletes its entry, a name stands for the backup that it was given to, and no
other backup gets the name. One that gets it later is of the same artifact and the same second. -/
theorem name_stands_until_freed (h : s.Founded w) {before : List Step}
    (hcall : st.call = .create artifact content)
    (hmade : s.calls.reply (s.calls.after w before) st = .ok (.created b)) (between : List Step) :
    (¬ s.Frees b.name (s.calls.after w (before ++ [st])) between →
      (s.calls.after w (before ++ st :: between)).tree.bytesAt (s.folder ++ [b.name]) = some content ∧
      ∀ clock bytes, s.calls.reply (s.calls.after w (before ++ st :: between)) ⟨clock, .get b.name⟩
        = .ok (.content bytes) → bytes = content) ∧
    ∀ again artifact' content' b', again.call = .create artifact' content' →
      s.calls.reply (s.calls.after w (before ++ st :: between)) again = .ok (.created b') → b'.name = b.name →
      s.Frees b.name (s.calls.after w (before ++ [st])) between ∧ artifact' = artifact ∧
        ∃ c c', b.created = some c ∧ b'.created = some c' ∧ Stamp.write c = Stamp.write c' := by
  have hbefore := h.after before
  obtain ⟨hslot, hb, hadvance⟩ := hbefore.created hcall hmade
  have hafter : s.Founded (s.calls.after w (before ++ [st])) := h.after _
  have hentry : (s.calls.after w (before ++ [st])).tree.get? (s.folder ++ [b.name])
      = some (.file content World.plainMode .lately) := by
    rw [Calls.after_concat, hadvance]
    exact (Tree.put_sets hslot.lands.ne_nil _).self
  have hrun : s.calls.after w (before ++ st :: between)
      = s.calls.after (s.calls.after w (before ++ [st])) between := by
    simp
  have hend : s.Founded (s.calls.after w (before ++ st :: between)) := h.after _
  have htaken : s.Taken (s.calls.after w (before ++ [st])) b.name := by
    rw [Taken, hentry]
    exact Option.some_ne_none _
  have hkept := hafter.kept_or_freed htaken between
  rw [hentry, ← hrun] at hkept
  refine ⟨fun hfrees => ?_, fun again artifact' content' b' hcall' hmade' hname => ?_⟩
  · have hfile := hkept.resolve_right hfrees
    have hbytes := Tree.bytesAt_eq_some_iff.mpr ⟨_, _, hfile⟩
    have hlands := hbefore.of_alike (v := st.meets (s.calls.after w before)) ⟨rfl, rfl⟩ |>.lands_of hend
      hslot.lands (Tree.skeleton_of_file hfile)
    exact ⟨hbytes, fun clock bytes hread => content_of_reply hlands hbytes hread⟩
  · obtain ⟨hslot', hb', -⟩ := hend.created hcall' hmade'
    have hvacant : (s.calls.after w (before ++ st :: between)).tree.get? (s.folder ++ [b.name]) = none :=
      hname ▸ hslot'.vacant
    obtain ⟨counter, -, hwritten⟩ := hslot.named
    obtain ⟨counter', -, hwritten'⟩ := hslot'.named
    obtain ⟨howner, hstamp, -⟩ := Name.eq_of_writeBackup_eq
      (hwritten.symm.trans (hname.symm.trans hwritten'))
    refine ⟨hkept.resolve_left ?_, howner.symm, _, _, ?_, ?_, hstamp⟩
    · rw [hvacant]
      exact (Option.some_ne_none _).symm
    · rw [hb]
    · rw [hb']

/-- The backup made at noon is deleted. -/
def noonDeletion : Step := ⟨World.noon, .delete "a.20240501_120000.backup"⟩

/-- Another backup of the artifact is made at noon. -/
def noonBackupAgain : Step := ⟨World.noon, .create "a" [98]⟩

/-- Within one second a name stands for one content before its backup is deleted and for another one
after that. -/
theorem name_given_again : shelf.Founded (emptyAt shelf.folder) ∧
    (shelf.calls.reply (emptyAt shelf.folder) noonBackup = .ok (.created
      ⟨"a.20240501_120000.backup", "a", some ⟨2024, 5, 1, 12, 0, 0⟩, 1⟩) ∧
    shelf.calls.reply (shelf.calls.after (emptyAt shelf.folder) [noonBackup]) noonReading
      = .ok (.content [97])) ∧
    shelf.calls.reply (shelf.calls.after (emptyAt shelf.folder) [noonBackup, noonDeletion]) noonBackupAgain
      = .ok (.created ⟨"a.20240501_120000.backup", "a", some ⟨2024, 5, 1, 12, 0, 0⟩, 1⟩) ∧
    shelf.calls.reply (shelf.calls.after (emptyAt shelf.folder) [noonBackup, noonDeletion, noonBackupAgain])
      noonReading = .ok (.content [98]) := by
  refine ⟨founded_emptyAt (by decide), ⟨?_, ?_⟩, ?_, ?_⟩
  · cbv
  · cbv
  · cbv
  · cbv

/-- A backup of another artifact leaves the one made at noon. -/
theorem name_stands_past_other : shelf.Founded (emptyAt shelf.folder) ∧
    shelf.calls.reply (shelf.calls.after (emptyAt shelf.folder) []) noonBackup = .ok (.created
      ⟨"a.20240501_120000.backup", "a", some ⟨2024, 5, 1, 12, 0, 0⟩, 1⟩) ∧
    (shelf.calls.after (emptyAt shelf.folder)
      ([] ++ noonBackup :: [⟨World.noon, .create "b" []⟩])).tree.bytesAt (shelf.folder ++ ["a.20240501_120000.backup"]) = some [97] := by
  have hfounded : shelf.Founded (emptyAt shelf.folder) := founded_emptyAt (by decide)
  have hmade : shelf.calls.reply (shelf.calls.after (emptyAt shelf.folder) []) noonBackup = .ok (.created
      ⟨"a.20240501_120000.backup", "a", some ⟨2024, 5, 1, 12, 0, 0⟩, 1⟩) := by cbv
  refine ⟨hfounded, hmade, ((name_stands_until_freed hfounded rfl hmade _).1 ?_).1⟩
  rintro (hgone | hnone)
  · obtain ⟨given, hdelete, -⟩ := hgone.deletes
    cases hdelete
  · exact hnone

end Store
end ConfigSteward
