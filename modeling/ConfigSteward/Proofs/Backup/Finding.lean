import ConfigSteward.Proofs.Backup.Listing

/-!
# What a name finds

A name finds the entry of the folder that it resolves to, if that entry leads to a file. So what is read
or taken away under the name of a link is the file that the link leads to, and nothing is found under
a name that leads out of the folder. Links that lead back to themselves are apart: they resolve to a
place as it is written, and the entry there may be one more link, which is then followed.
-/
namespace ConfigSteward

open Plan

namespace World

variable {w : World} {p : Path} {place : Place}

/-- The path stands for a place: all links on it and inside of them come to an end. -/
def StandsFor (w : World) (p : Path) (place : Place) : Prop :=
  ∃ n, w.tree.Resolves n (p.start w.here) p.parts place

theorem StandsFor.resolve_eq (h : w.StandsFor p place) : w.tree.resolve w.here p = .ok place :=
  Tree.resolve_of_resolves h.choose_spec

private theorem standsFor_of_walk (h : w.tree.walk true w.here p = .ok place) : w.StandsFor p place :=
  ⟨linkBudget, (Tree.walk_eq_ok_iff.mp h).2.resolves⟩

theorem Sound.ne_link (hw : w.Sound) (h : w.StandsFor p place) (target : String) :
    w.tree.get? place ≠ some (.link target) := by
  obtain ⟨n, hresolves⟩ := h
  have hstart := (Tree.Sound.clear_of_folder hw.tree hw.here).start p
  exact hresolves.clear hstart place (List.prefix_refl place) target

end World

namespace Store

variable {s : Store} {w v : World} {name entry : String} {bytes : Bytes} {place : Place}

private theorem ne_up_of_isSafe (h : Name.isSafe name = true) : name ≠ ".." := by
  rintro rfl
  exact absurd h (by decide)

/-- The name is a backup's and resolves to an entry of the folder that leads to a file. -/
structure Finds (s : Store) (w : World) (name entry : String) (bytes : Bytes) : Prop where
  safe : Name.isSafe name = true
  ends : Name.endsIn Name.backupSuffix name = true
  resolves : w.tree.resolve w.here (s.pathOf name) = .ok (s.folder ++ [entry])
  read : w.read (s.pathOf entry) = .ok bytes

theorem Finds.unique {entry' : String} {bytes' : Bytes} (h : s.Finds w name entry bytes)
    (h' : s.Finds w name entry' bytes') : entry = entry' ∧ bytes = bytes' := by
  have hplace := Except.ok.inj (h.resolves.symm.trans h'.resolves)
  obtain rfl : entry = entry' := List.singleton_inj.mp (List.append_inj' hplace rfl).2
  exact ⟨rfl, Except.ok.inj (h.read.symm.trans h'.read)⟩

/-- The entry is a file with the content, or a link, under a name that stands for nothing since its
links lead back to themselves. -/
def Exposes (s : Store) (w : World) (name entry : String) (bytes : Bytes) : Prop :=
  (∃ mode changed, w.tree.get? (s.folder ++ [entry]) = some (.file bytes mode changed)) ∨
    (∀ place, ¬ w.StandsFor (s.pathOf name) place) ∧
      ∃ target, w.tree.get? (s.folder ++ [entry]) = some (.link target)

theorem Finds.dropLast_eq (h : s.Finds w name entry bytes)
    (hstands : w.StandsFor (s.pathOf name) place) : place.dropLast = s.folder := by
  obtain rfl := Except.ok.inj (hstands.resolve_eq.symm.trans h.resolves)
  exact List.dropLast_concat

/-- A place in a folder from which something is read is an entry of the folder. -/
theorem exists_entry {folder : Place} (hplace : place.dropLast = folder)
    (hread : w.read place.path = .ok bytes) : ∃ entry, place = folder ++ [entry] := by
  rcases List.eq_nil_or_concat place with rfl | ⟨front, entry, rfl⟩
  · obtain ⟨q, mode, changed, hwalk, hfile⟩ := World.read_eq_ok_iff.mp hread
    obtain rfl := (Tree.walk_eq_ok_iff.mp hwalk).2.unique .stop
    cases hfile.symm.trans (Tree.get?_nil _)
  · rw [List.concat_eq_append, List.dropLast_concat] at hplace
    exact ⟨entry, by rw [List.concat_eq_append, hplace]⟩

/-- The path of the entry that a name finds is given, or the name is refused. -/
theorem does_find_entry (s : Store) (w : World) (name : String) :
    (s.find name).run.Does (· = w) w fun r v _ => v = w ∧
      ((∃ entry bytes, s.Finds w name entry bytes ∧ r = .ok (s.pathOf entry)) ∨
        (∀ entry bytes, ¬ s.Finds w name entry bytes) ∧ ∃ failure, r = .error failure) := by
  rw [find]
  by_cases hname : Name.isSafe name = true ∧ Name.endsIn Name.backupSuffix name = true
  · simp only [hname.1, hname.2, Bool.and_self, if_true]
    refine does_andThen.mpr (Task.does_resolve_eq rfl (fun place hplace => ?_) fun place hplace => ?_)
    · by_cases hfolder : place.dropLast = s.folder
      · have hnot (hread : ∀ bytes, w.read place.path ≠ .ok bytes) (entry : String) (bytes : Bytes) :
            ¬ s.Finds w name entry bytes := by
          intro h
          obtain rfl := Except.ok.inj (hplace.symm.trans h.resolves)
          exact hread bytes h.read
        simp only [hfolder, if_true]
        refine does_andThen.mpr (Task.does_ofFile.mpr (FileTask.does_leads.mpr ⟨rfl, ?_⟩))
        rcases hleads : FileTask.leadsIn w place.path _ with f | (_ | _)
        · refine ⟨rfl, rfl, .inr ⟨hnot fun bytes hread => ?_, _, rfl⟩⟩
          cases hleads.symm.trans (FileTask.leadsIn_file_iff.mpr ⟨bytes, hread⟩)
        · refine Task.does_refuse.mpr ⟨rfl, rfl, .inr ⟨hnot fun bytes hread => ?_, _, rfl⟩⟩
          cases hleads.symm.trans (FileTask.leadsIn_file_iff.mpr ⟨bytes, hread⟩)
        · obtain ⟨bytes, hread⟩ := FileTask.leadsIn_file_iff.mp hleads
          obtain ⟨entry, rfl⟩ := exists_entry hfolder hread
          exact does_pure.mpr
            ⟨rfl, rfl, .inl ⟨entry, bytes, ⟨hname.1, hname.2, hplace, hread⟩, rfl⟩⟩
      · simp only [hfolder, if_false]
        refine Task.does_refuse.mpr ⟨rfl, rfl, .inr ⟨fun entry bytes h => hfolder ?_, _, rfl⟩⟩
        rw [Except.ok.inj (hplace.symm.trans h.resolves), List.dropLast_concat]
    · refine ⟨rfl, rfl, .inr ⟨fun entry bytes h => ?_, _, rfl⟩⟩
      cases hplace.symm.trans h.resolves
  · have hname' : (Name.isSafe name && Name.endsIn Name.backupSuffix name) = false := by
      simpa using hname
    simp only [hname']
    exact Task.does_refuse.mpr
      ⟨rfl, rfl, .inr ⟨fun entry bytes h => hname ⟨h.safe, h.ends⟩, _, rfl⟩⟩

/-- What is got is the content of the file that the name finds. -/
theorem does_get_found (s : Store) (w : World) (name : String) :
    (s.get name).run.Does (· = w) w fun r v _ => v = w ∧
      ((∃ entry bytes, s.Finds w name entry bytes ∧ r = .ok bytes) ∨
        (∀ entry bytes, ¬ s.Finds w name entry bytes) ∧ ∃ failure, r = .error failure) := by
  rw [get]
  refine does_andThen.mpr ((s.does_find_entry w name).mono (fun _ hv => hv) ?_)
  rintro r v es ⟨rfl, ⟨entry, bytes, hfinds, rfl⟩ | ⟨hnot, failure, rfl⟩⟩
  · refine Task.does_ofFileOr.mpr (FileTask.does_read.mpr ⟨rfl, rfl, .inl ⟨entry, bytes, hfinds, ?_⟩⟩)
    rw [hfinds.read]
    rfl
  · exact ⟨rfl, rfl, .inr ⟨hnot, failure, rfl⟩⟩

namespace Founded

section
variable (h : s.Founded w)
include h

/-- A path in the folder that can be read ends with a name, and the entry of that name is the file or
a link. -/
theorem entry_of_read (hread : w.read (s.pathOf entry) = .ok bytes) :
    w.tree.walk false w.here (s.pathOf entry) = .ok (s.folder ++ [entry]) ∧
      ((∃ mode changed, w.tree.get? (s.folder ++ [entry]) = some (.file bytes mode changed)) ∨
        ∃ target, w.tree.get? (s.folder ++ [entry]) = some (.link target)) := by
  obtain ⟨q, mode, changed, hwalk, hfile⟩ := World.read_eq_ok_iff.mp hread
  obtain ⟨hlen, hleads⟩ := Tree.walk_eq_ok_iff.mp hwalk
  obtain ⟨folder, hfolder, hlast⟩ := hleads.split
  obtain rfl : folder = s.folder :=
    hfolder.unique (hfolder.of_folder h.sound.tree h.sound.tree h.straight h.there h.there)
  have hends (plain : Tree.Plain entry) :
      w.tree.walk false w.here (s.pathOf entry) = .ok (s.folder ++ [entry]) :=
    Tree.walk_eq_ok_iff.mpr ⟨hlen, hfolder.snoc h.there plain⟩
  cases hlast with
  | up tail =>
    obtain rfl := tail.unique .stop
    have hup := Tree.Sound.folder_above h.sound.tree h.there (List.dropLast_prefix s.folder)
    cases hfile.symm.trans hup
  | into plain found tail =>
    obtain rfl := tail.unique .stop
    cases hfile.symm.trans (Tree.skeleton_eq_folder_iff.mp found)
  | leaf plain found => exact ⟨hends plain, .inl ⟨mode, changed, hfile⟩⟩
  | kept _ _ hfollow => cases hfollow
  | through plain found => exact ⟨hends plain, .inr ⟨_, Tree.skeleton_eq_link_iff.mp found⟩⟩

/-- A link is exposed only under a name that stands for nothing. -/
theorem exposes (hfinds : s.Finds w name entry bytes) : s.Exposes w name entry bytes := by
  refine (h.entry_of_read hfinds.read).2.imp_right ?_
  rintro ⟨target, hlink⟩
  refine ⟨fun place hstands => ?_, target, hlink⟩
  obtain rfl := Except.ok.inj (hstands.resolve_eq.symm.trans hfinds.resolves)
  exact h.sound.ne_link hstands target hlink

/-- The entry that a name finds is its own just where this is no link. -/
theorem entry_eq_iff (hfinds : s.Finds w name entry bytes) :
    entry = name ↔ ∀ target, w.tree.get? (s.folder ++ [name]) ≠ some (.link target) := by
  constructor
  · rintro rfl target hlink
    obtain ⟨q, mode, changed, hwalk, hfile⟩ := World.read_eq_ok_iff.mp hfinds.read
    have hplace := (World.standsFor_of_walk hwalk).resolve_eq
    obtain rfl := Except.ok.inj (hplace.symm.trans hfinds.resolves)
    cases hfile.symm.trans hlink
  · intro hlink
    have hup : ".." ∉ s.folder ++ [name] := by
      simpa [h.straight] using Ne.symm (ne_up_of_isSafe hfinds.safe)
    have hplace := Tree.Sound.resolve_entry h.sound.tree h.there hup hlink w.here
    have hsame := Except.ok.inj (hfinds.resolves.symm.trans hplace)
    exact List.singleton_inj.mp (List.append_inj' hsame rfl).2

/-- What a name finds can be taken away. -/
theorem unlink_found (hread : w.read (s.pathOf entry) = .ok bytes) :
    w.unlink (s.pathOf entry)
      = (.ok (), { w with tree := w.tree.remove (s.folder ++ [entry]) }) := by
  obtain ⟨hwalk, ⟨mode, changed, hget⟩ | ⟨target, hget⟩⟩ := h.entry_of_read hread
  · simp only [World.unlink, hwalk, hget]
  · simp only [World.unlink, hwalk, hget]

/-- Taking a backup away drops the entry that its name finds, or fails and changes nothing. -/
theorem does_delete_found (name : String) :
    (s.delete name).run.Does (fun _ => True) w fun r v _ =>
      (∃ entry bytes, s.Finds w name entry bytes ∧ r = .ok () ∧
        v = { w with tree := w.tree.remove (s.folder ++ [entry]) }) ∨
      (∀ entry bytes, ¬ s.Finds w name entry bytes) ∧ (∃ failure, r = .error failure) ∧ v = w := by
  rw [delete]
  refine does_andThen.mpr ((s.does_find_entry w name).mono (fun _ _ => trivial) ?_)
  rintro r v es ⟨rfl, ⟨entry, bytes, hfinds, rfl⟩ | ⟨hnot, failure, rfl⟩⟩
  · refine does_andThen.mpr (Task.does_attemptFile.mpr (FileTask.does_unlink.mpr
      ⟨trivial, trivial, ?_⟩))
    rw [h.unlink_found hfinds.read]
    exact does_pure.mpr ⟨trivial, .inl ⟨entry, bytes, hfinds, rfl, rfl⟩⟩
  · exact ⟨trivial, .inr ⟨hnot, ⟨failure, rfl⟩, rfl⟩⟩

end
end Founded

/-- Deleting takes away exactly the entry that the name finds. It is the entry of this name just
where that is no link; else the file goes that the link leads to, and the link stays. -/
theorem delete_drops_what_is_found (h : s.Founded w) (name : String) :
    (s.delete name).run.Does (fun _ => True) w fun r v _ =>
      (∃ entry bytes, s.Finds w name entry bytes ∧ r = .ok () ∧
        w.tree.get? (s.folder ++ [entry]) ≠ none ∧
        w.tree.Sets (s.folder ++ [entry]) none v.tree ∧
        (entry = name ↔ ∀ target, w.tree.get? (s.folder ++ [name]) ≠ some (.link target))) ∨
      (∀ entry bytes, ¬ s.Finds w name entry bytes) ∧ (∃ failure, r = .error failure) ∧ v = w := by
  refine (h.does_delete_found name).mono (fun _ hv => hv) fun r v es hends => hends.imp_left ?_
  rintro ⟨entry, bytes, hfinds, rfl, rfl⟩
  refine ⟨entry, bytes, hfinds, rfl, ?_, Tree.remove_sets (by simp), h.entry_eq_iff hfinds⟩
  obtain ⟨-, ⟨mode, changed, hget⟩ | ⟨target, hget⟩⟩ := h.entry_of_read hfinds.read <;> simp [hget]

/-- A shelf with a backup and links to it, to each other and to a note outside. -/
def crossed : World :=
  { emptyAt shelf.folder with
    tree := ⟨[(["b"], .folder), (["x"], .file [120] 0o644 .lately),
      (["b", "a.backup"], .link "b.backup"), (["b", "b.backup"], .link "../b/c.backup"),
      (["b", "c.backup"], .file [99] 0o644 .lately), (["b", "o.backup"], .link "/x")]⟩ }

private theorem founded_crossed : shelf.Founded crossed :=
  ⟨⟨Tree.sound_of_entries (by decide), rfl⟩, by decide, by decide⟩

private theorem finds_crossed : shelf.Finds crossed "a.backup" "c.backup" [99] :=
  ⟨by decide, by decide, by cbv, by cbv⟩

theorem delete_drops_what_is_found_crossed :
    shelf.Founded crossed ∧ ∃ v, (shelf.delete "a.backup").run.run crossed = (.ok (), v) ∧
      crossed.tree.Sets ["b", "c.backup"] none v.tree := by
  refine ⟨founded_crossed, ?_⟩
  obtain ⟨entry, bytes, hfinds, hr, -, hsets, -⟩ | ⟨hnot, -⟩ :=
    (delete_drops_what_is_found founded_crossed "a.backup").ends
  · obtain ⟨rfl, -⟩ := hfinds.unique finds_crossed
    exact ⟨_, Prod.ext hr rfl, hsets⟩
  · exact absurd finds_crossed (hnot _ _)

/-- The link whose deletion was asked for is still there, and the backup beside it is gone. -/
theorem delete_spares_link :
    crossed.tree.get? ["b", "a.backup"] = some (.link "b.backup") ∧
      ∃ v, (shelf.delete "a.backup").run.run crossed = (.ok (), v) ∧
        v.tree.get? ["b", "a.backup"] = some (.link "b.backup") ∧
        crossed.tree.get? ["b", "c.backup"] = some (.file [99] 0o644 .lately) ∧
        v.tree.get? ["b", "c.backup"] = none := by
  refine ⟨by decide, { crossed with tree := crossed.tree.remove ["b", "c.backup"] }, ?_, by decide,
    by decide, by decide⟩
  obtain ⟨entry, bytes, hfinds, hr, hv⟩ | ⟨hnot, -⟩ :=
    (founded_crossed.does_delete_found "a.backup").ends
  · obtain ⟨rfl, -⟩ := hfinds.unique finds_crossed
    exact Prod.ext hr hv
  · exact absurd finds_crossed (hnot _ _)

/-- What is got or deleted under a name is a file of the folder, and a name that stands for anything
else is refused. Only under a name whose links lead back to themselves is a link of the folder
followed or taken away. -/
theorem keeps_to_folder_unless_looped (h : s.Founded w) (name : String) :
    (s.get name).run.Does (· = w) w (fun r v _ => v = w ∧
      ((∃ entry bytes, s.Finds w name entry bytes ∧ s.Exposes w name entry bytes ∧ r = .ok bytes) ∨
        (∀ entry bytes, ¬ s.Finds w name entry bytes) ∧ ∃ failure, r = .error failure)) ∧
    (s.delete name).run.Does (fun _ => True) w (fun r v _ =>
      (∃ entry bytes, s.Finds w name entry bytes ∧ s.Exposes w name entry bytes ∧ r = .ok () ∧
        w.tree.Sets (s.folder ++ [entry]) none v.tree) ∨
      (∀ entry bytes, ¬ s.Finds w name entry bytes) ∧ (∃ failure, r = .error failure) ∧ v = w) ∧
    ∀ place, w.StandsFor (s.pathOf name) place → place.dropLast ≠ s.folder →
      (∃ failure, (s.get name).run.run w = (.error failure, w)) ∧
        ∃ failure, (s.delete name).run.run w = (.error failure, w) := by
  have hget := s.does_get_found w name
  have hdelete := h.does_delete_found name
  refine ⟨hget.mono (fun _ hv => hv) ?_, hdelete.mono (fun _ hv => hv) ?_, ?_⟩
  · rintro r v es ⟨rfl, ⟨entry, bytes, hfinds, hr⟩ | hnot⟩
    · exact ⟨rfl, .inl ⟨entry, bytes, hfinds, h.exposes hfinds, hr⟩⟩
    · exact ⟨rfl, .inr hnot⟩
  · rintro r v es (⟨entry, bytes, hfinds, hr, rfl⟩ | hnot)
    · exact .inl ⟨entry, bytes, hfinds, h.exposes hfinds, hr, Tree.remove_sets (by simp)⟩
    · exact .inr hnot
  · intro place hstands houtside
    have hnone (entry : String) (bytes : Bytes) : ¬ s.Finds w name entry bytes :=
      fun hfinds => houtside (hfinds.dropLast_eq hstands)
    obtain ⟨hsame, ⟨entry, bytes, hfinds, -⟩ | ⟨-, failure, hr⟩⟩ := hget.ends
    · exact absurd hfinds (hnone entry bytes)
    · obtain ⟨entry, bytes, hfinds, -⟩ | ⟨-, ⟨failure', hr'⟩, hsame'⟩ := hdelete.ends
      · exact absurd hfinds (hnone entry bytes)
      · exact ⟨⟨failure, Prod.ext hr hsame⟩, failure', Prod.ext hr' hsame'⟩

theorem keeps_to_folder_unless_looped_crossed :
    shelf.Founded crossed ∧ crossed.StandsFor (shelf.pathOf "o.backup") ["x"] ∧
      (∃ failure, (shelf.get "o.backup").run.run crossed = (.error failure, crossed)) ∧
      ∃ failure, (shelf.delete "o.backup").run.run crossed = (.error failure, crossed) := by
  have hstands : crossed.StandsFor (shelf.pathOf "o.backup") ["x"] :=
    World.standsFor_of_walk (by cbv)
  exact ⟨founded_crossed, hstands,
    (keeps_to_folder_unless_looped founded_crossed "o.backup").2.2 ["x"] hstands (by decide)⟩

/-- A shelf with a link out of it and a link whose way goes through itself to that one. -/
def looped : World :=
  { emptyAt shelf.folder with
    tree := ⟨[(["b"], .folder), (["x"], .file [120] 0o644 .lately),
      (["b", "a.backup"], .link "a.backup/../c.backup"), (["b", "c.backup"], .link "/x")]⟩ }

/-- There is no file in the folder, and the link out of it is refused. The other link gives the
content of the file outside. -/
theorem loop_leads_out :
    (shelf.get "a.backup").run.run looped = (.ok [120], looped) ∧
      (∃ failure, (shelf.get "c.backup").run.run looped = (.error failure, looped)) ∧
      ∀ name bytes mode changed,
        looped.tree.get? (shelf.folder ++ [name]) ≠ some (.file bytes mode changed) := by
  have houtside : looped.StandsFor (shelf.pathOf "c.backup") ["x"] :=
    World.standsFor_of_walk (by cbv)
  have hfinds : shelf.Finds looped "a.backup" "c.backup" [120] :=
    ⟨by decide, by decide, by cbv, by cbv⟩
  refine ⟨?_, ?_, fun name bytes mode changed hfile => ?_⟩
  · obtain ⟨hsame, ⟨entry, bytes, h, hr⟩ | ⟨hnot, -⟩⟩ := (shelf.does_get_found looped "a.backup").ends
    · obtain ⟨-, rfl⟩ := h.unique hfinds
      exact Prod.ext hr hsame
    · exact absurd hfinds (hnot _ _)
  · obtain ⟨hsame, ⟨entry, bytes, h, -⟩ | ⟨-, failure, hr⟩⟩ :=
      (shelf.does_get_found looped "c.backup").ends
    · exact absurd (h.dropLast_eq houtside) (by decide)
    · exact ⟨failure, Prod.ext hr hsame⟩
  · have hmem := Tree.get?_mem hfile (by simp)
    simp [looped, shelf] at hmem

end Store
end ConfigSteward
