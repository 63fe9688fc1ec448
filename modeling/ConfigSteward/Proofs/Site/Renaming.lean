import ConfigSteward.Proofs.Backup.Creation
import ConfigSteward.Proofs.Servers.Contents
import ConfigSteward.Proofs.Site.Refusing
import ConfigSteward.Proofs.Site.ServerFiles

/-!
# Taken names

Creating a server file takes a name that no entry has, whatever the entry is. Renaming one asks what
the new name leads to, so files, folders and links that lead somewhere keep their names, and a link
that leads nowhere gives way to the file.
-/
namespace ConfigSteward

open Plan

/-- The entry of one place is at another as it was, and all other entries are where they were. -/
structure Tree.Moves (t : Tree) (p q : Place) (t' : Tree) : Prop where
  there : t.get? p ≠ none
  gone : t'.get? p = none
  same : t'.get? q = t.get? p
  other : ∀ r, r ≠ p → r ≠ q → t'.get? r = t.get? r

theorem Tree.moves_put {t : Tree} {p q : Place} {node : Node} (hp : p ≠ []) (hq : q ≠ [])
    (hne : p ≠ q) (hget : t.get? p = some node) : t.Moves p q ((t.remove p).put q node) := by
  have hput := put_sets (t := t.remove p) hq node
  have hremove := remove_sets (t := t) hp
  exact ⟨by simp [hget], (hput.other hne).trans hremove.self, hput.self.trans hget.symm,
    fun r hr hr' => (hput.other hr').trans (hremove.other hr)⟩

namespace World

variable {w v : World} {p source target : Path} {place origin goal : Place} {bytes : Bytes}

/-- A path that can be read names an entry that is no folder. -/
theorem entry_of_read (h : w.read p = .ok bytes) : ∃ q node, w.tree.walk false w.here p = .ok q ∧
    w.tree.get? q = some node ∧ node ≠ .folder := by
  obtain ⟨place, mode, changed, hwalk, hfile⟩ := read_eq_ok_iff.mp h
  obtain ⟨hlen, hleads⟩ := Tree.walk_eq_ok_iff.mp hwalk
  obtain ⟨q, hq, rfl | ⟨link, hlink⟩⟩ := hleads.stop_at_link
  · exact ⟨q, _, Tree.walk_eq_ok_iff.mpr ⟨hlen, hq⟩, hfile, by simp⟩
  · exact ⟨q, _, Tree.walk_eq_ok_iff.mpr ⟨hlen, hq⟩, hlink, by simp⟩

/-- What is moved is no folder, and none is in its way. -/
theorem move_eq_ok (h : w.move source target = (.ok (), v)) : ∃ origin goal node,
    w.tree.walk false w.here source = .ok origin ∧ w.tree.walk false w.here target = .ok goal ∧
      w.tree.get? origin = some node ∧ node ≠ .folder ∧ w.tree.get? goal ≠ some .folder ∧
      (origin ≠ goal → v = { w with tree := (w.tree.remove origin).put goal node }) := by
  unfold World.move at h
  dsimp only at h
  split at h
  · cases h
  · cases h
  · next origin goal horigin hgoal =>
    split at h
    · cases h
    · cases h
    · next node hfolder hget =>
      have hnode : node ≠ .folder := by
        rintro rfl
        exact hfolder rfl
      split at h
      · cases h
      · next hfree =>
        refine ⟨origin, goal, node, horigin, hgoal, hget, hnode, hfree, fun hne => ?_⟩
        rw [if_neg hne] at h
        exact (congrArg Prod.snd h).symm

/-- An entry that is no folder can be moved wherever no folder is. -/
theorem move_free {node : Node} (horigin : w.tree.walk false w.here source = .ok origin)
    (hget : w.tree.get? origin = some node) (hnode : node ≠ .folder)
    (hgoal : w.tree.walk false w.here target = .ok goal)
    (hfree : w.tree.get? goal ≠ some .folder) : (w.move source target).1 = .ok () := by
  cases node with
  | folder => exact absurd rfl hnode
  | file | link =>
    rcases eq_or_ne origin goal with rfl | hne
    · simp [World.move, horigin, hgoal, hget]
    · simp [World.move, horigin, hgoal, hget, hfree, hne]

end World

namespace Site

open World

variable {s : Site} {w v : World} {old new : Option String} {a b : String}

/-- No entry has the name. -/
def Unused (s : Site) (w : World) (name : Option String) : Prop :=
  ∃ file place, s.Means name file ∧
    w.tree.walk false w.here (s.servers.child file) = .ok place ∧ w.tree.get? place = none

/-- The entry of the name is a link, and it leads nowhere. -/
def Stray (s : Site) (w : World) (file : String) : Prop :=
  FileTask.leadsIn w (s.servers.child file) (fun _ => true) = .ok false ∧
    ∃ place target, w.tree.walk false w.here (s.servers.child file) = .ok place ∧
      w.tree.get? place = some (.link target)

/-- The old name leads to a file, and the new one is unused or that of a stray link that does not lead
back to itself. -/
structure Renamable (s : Site) (w : World) (old new : Option String) : Prop where
  source : ∃ file bytes, s.Means old file ∧ w.read (s.servers.child file) = .ok bytes
  target : s.Unused w new ∨ ∃ file, s.Means new file ∧ s.Stray w file ∧
    ∃ place, w.tree.resolve w.here (s.servers.child file) = .ok place

theorem Unused.vacancy_eq {name : Option String} {file : String} (h : s.Unused w name)
    (hmeans : s.Means name file) : ∃ place, w.vacancy (s.servers.child file) = .ok place := by
  obtain ⟨file', place, hmeans', hwalk, hnone⟩ := h
  obtain rfl := hmeans.unique hmeans'
  have hlands : w.Lands _ place := ⟨hwalk, Tree.skeleton_of_vacant hnone⟩
  exact ⟨place, hlands.vacancy_eq hnone⟩

private theorem unused_of_vacancy {name : Option String} {file : String} {place : Place}
    (hmeans : s.Means name file) (h : w.vacancy (s.servers.child file) = .ok place) :
    s.Unused w name := by
  obtain ⟨hlands, hnone⟩ := vacancy_eq_ok_iff.mp h
  exact ⟨file, place, hmeans, hlands.walk, hnone⟩

/-- What has a name in the folder of servers is there. -/
theorem entry_of_walk {file : String} {place : Place} (hw : w.Sound)
    (hwalk : w.tree.walk false w.here (s.servers.child file) = .ok place)
    (hfolder : w.tree.get? place ≠ some .folder) :
    ∃ folder, w.tree.walk true w.here s.servers = .ok folder ∧ place = folder ++ [file] := by
  obtain ⟨-, folder, hservers, -, -, hplace⟩ := split_of_walk hw hwalk hfolder
  rw [Path.parent_child] at hservers
  rw [Path.name_child] at hplace
  exact ⟨folder, hservers, hplace⟩

/-- Moving a file where nothing is found takes a vacant place or that of a stray link. -/
theorem moves_server (hw : w.Sound)
    (hfile : FileTask.leadsIn w (s.servers.child a) (fun status => status.kind = .file) = .ok true)
    (hnowhere : FileTask.leadsIn w (s.servers.child b) (fun _ => true) = .ok false)
    (hmove : w.move (s.servers.child a) (s.servers.child b) = (.ok (), v)) :
    ∃ folder, w.tree.walk true w.here s.servers = .ok folder ∧
      w.tree.Moves (folder ++ [a]) (folder ++ [b]) v.tree ∧
      (w.vacancy (s.servers.child b) = .ok (folder ++ [b]) ∨ s.Stray w b) := by
  obtain ⟨origin, goal, node, horigin, hgoal, hget, hnode, hfree, htree⟩ := move_eq_ok hmove
  obtain ⟨folder, hservers, rfl⟩ := entry_of_walk hw horigin (by simpa [hget] using hnode)
  obtain ⟨folder', hservers', rfl⟩ := entry_of_walk hw hgoal hfree
  obtain rfl := Except.ok.inj (hservers.symm.trans hservers')
  have hne : folder ++ [a] ≠ folder ++ [b] := by
    intro heq
    obtain rfl := List.singleton_inj.mp (List.append_inj' heq rfl).2
    obtain ⟨bytes, hread⟩ := FileTask.leadsIn_file_iff.mp hfile
    obtain ⟨q, mode, changed, hwalk, hget'⟩ := read_eq_ok_iff.mp hread
    simp [FileTask.leadsIn, look, onNode, hwalk, hget', statusOf] at hnowhere
  refine ⟨folder, hservers, ?_, ?_⟩
  · rw [htree hne]
    exact Tree.moves_put (by simp) (by simp) hne hget
  by_cases hlink : ∃ target, w.tree.get? (folder ++ [b]) = some (.link target)
  · obtain ⟨target, hlink⟩ := hlink
    exact .inr ⟨hnowhere, _, target, hgoal, hlink⟩
  · have hlands := lands_of_walk hgoal hfree fun target hget => hlink ⟨target, hget⟩
    exact .inl (hlands.vacancy_eq (hlands.vacant_of_leadsIn hnowhere))

namespace Renamable

section
variable (h : s.Renamable w old new)
include h

theorem file (ha : s.Means old a) :
    FileTask.leadsIn w (s.servers.child a) (fun status => status.kind = .file) = .ok true := by
  obtain ⟨a', bytes, ha', hread⟩ := h.source
  obtain rfl := ha.unique ha'
  exact FileTask.leadsIn_file_iff.mpr ⟨bytes, hread⟩

theorem means : ∃ file, s.Means new file := by
  rcases h.target with ⟨file, -, hmeans, -⟩ | ⟨file, hmeans, -⟩ <;> exact ⟨file, hmeans⟩

/-- The new name leads nowhere, and no folder has it. -/
theorem free (hb : s.Means new b) :
    FileTask.leadsIn w (s.servers.child b) (fun _ => true) = .ok false ∧
      ∃ goal, w.tree.walk false w.here (s.servers.child b) = .ok goal ∧
        w.tree.get? goal ≠ some .folder := by
  rcases h.target with hunused | ⟨b', hb', ⟨hnowhere, goal, target, hwalk, hlink⟩, -⟩
  · obtain ⟨goal, hvacant⟩ := hunused.vacancy_eq hb
    obtain ⟨hlands, hnone⟩ := vacancy_eq_ok_iff.mp hvacant
    refine ⟨?_, goal, hlands.walk, hlands.ne_folder⟩
    rw [FileTask.leadsIn, hlands.look_vacant hnone]
    rfl
  · obtain rfl := hb.unique hb'
    exact ⟨hnowhere, goal, hwalk, by simp [hlink]⟩

private theorem move_eq (ha : s.Means old a) (hb : s.Means new b) :
    (w.move (s.servers.child a) (s.servers.child b)).1 = .ok () := by
  obtain ⟨bytes, hread⟩ := FileTask.leadsIn_file_iff.mp (h.file ha)
  obtain ⟨origin, node, horigin, hget, hnode⟩ := entry_of_read hread
  obtain ⟨-, goal, hgoal, hfree⟩ := h.free hb
  exact move_free horigin hget hnode hgoal hfree

/-- The locks can be taken. -/
theorem resolves (ha : s.Means old a) (hb : s.Means new b) :
    ∀ p ∈ [s.servers.child a, s.servers.child b], ∃ place, w.tree.resolve w.here p = .ok place := by
  have hwalked {p : Path} {q : Place} (hwalk : w.tree.walk true w.here p = .ok q) :
      ∃ place, w.tree.resolve w.here p = .ok place :=
    ⟨q, Tree.resolve_of_leads (Tree.walk_eq_ok_iff.mp hwalk).2⟩
  obtain ⟨bytes, hread⟩ := FileTask.leadsIn_file_iff.mp (h.file ha)
  obtain ⟨q, -, -, hwalk, -⟩ := read_eq_ok_iff.mp hread
  simp only [List.forall_mem_cons, List.not_mem_nil, false_imp_iff, implies_true, and_true]
  refine ⟨hwalked hwalk, ?_⟩
  rcases h.target with hunused | ⟨b', hb', -, hresolves⟩
  · obtain ⟨goal, hvacant⟩ := hunused.vacancy_eq hb
    exact hwalked (vacancy_eq_ok_iff.mp hvacant).1.followed
  · obtain rfl := hb.unique hb'
    exact hresolves

end
end Renamable

/-- Renaming moves the file to a name that is unused or a stray link's, or fails and changes nothing;
it does not fail where the old name can be changed to the new one. -/
def Relocates (s : Site) (w : World) (old new : Option String)
    (r : Except Failure (String × String)) (v : World) : Prop :=
  (∃ failure, r = .error failure) ∧ v = w ∧ ¬ s.Renamable w old new ∨
    ∃ a b folder, s.Means old a ∧ s.Means new b ∧ r = .ok (a, b) ∧
      w.tree.walk true w.here s.servers = .ok folder ∧
      w.tree.Moves (folder ++ [a]) (folder ++ [b]) v.tree ∧ (s.Unused w new ∨ s.Stray w b)

theorem does_renameServer_relocates (hw : w.Sound) (s : Site) (old new : Option String) :
    (s.renameServer old new).run.Does (fun _ => True) w fun r v _ => s.Relocates w old new r v := by
  have hfails (failure : Failure) (hrenames : ¬ s.Renamable w old new) :
      s.Relocates w old new (.error failure) w := .inl ⟨⟨failure, rfl⟩, rfl, hrenames⟩
  rw [renameServer]
  split
  · next hempty =>
    refine Task.does_refuse.mpr ⟨trivial, hfails _ ?_⟩
    have hbad (file : String) : ¬ s.Means new file := by
      rintro ⟨hfile, -⟩
      rcases (by simpa using hempty) with rfl | rfl <;> cases hfile
    exact fun hrenames => hrenames.means.elim hbad
  refine does_andThen.mpr (does_serverPathTask.mpr ⟨trivial, ?_⟩)
  rcases s.serverPath_cases old with ⟨a, ha, hpath⟩ | ⟨refusal, hbad, -, hpath⟩
  swap
  · rw [hpath]
    refine ⟨trivial, hfails _ fun hrenames => ?_⟩
    obtain ⟨file, -, hmeans, -⟩ := hrenames.source
    exact hbad file hmeans
  rw [hpath]
  refine does_andThen.mpr (does_serverPathTask.mpr ⟨trivial, ?_⟩)
  rcases s.serverPath_cases new with ⟨b, hb, hpath'⟩ | ⟨refusal, hbad, -, hpath'⟩
  swap
  · rw [hpath']
    exact ⟨trivial, hfails _ fun hrenames => hrenames.means.elim hbad⟩
  rw [hpath']
  refine Lock.does_hold_or _ trivial (fun p hp place hloop => hfails _ fun hrenames => ?_) ?_
  · obtain ⟨place', hplace⟩ := hrenames.resolves ha hb p hp
    cases hloop.symm.trans hplace
  refine does_andThen.mpr (Task.does_ofFile.mpr (FileTask.does_leads.mpr ⟨trivial, ?_⟩))
  rcases hfile : FileTask.leadsIn w (s.servers.child a) _ with f | (_ | _)
  · exact ⟨trivial, hfails _ fun hrenames => by cases hfile.symm.trans (hrenames.file ha)⟩
  · refine Task.does_refuse.mpr ⟨trivial, hfails _ fun hrenames => ?_⟩
    cases hfile.symm.trans (hrenames.file ha)
  refine does_andThen.mpr (Task.does_ofFile.mpr (FileTask.does_leads.mpr ⟨trivial, ?_⟩))
  rcases hnowhere : FileTask.leadsIn w (s.servers.child b) _ with f | (_ | _)
  · exact ⟨trivial, hfails _ fun hrenames => by cases hnowhere.symm.trans (hrenames.free hb).1⟩
  · refine does_andThen.mpr (Task.does_ofFileOr.mpr (FileTask.does_move.mpr ⟨trivial, trivial, ?_⟩))
    rcases hmove : w.move (s.servers.child a) (s.servers.child b) with ⟨f | ⟨⟩, v⟩
    · rw [eq_of_move_error hmove]
      refine ⟨trivial, hfails _ fun hrenames => ?_⟩
      have hmoves := hrenames.move_eq ha hb
      rw [hmove] at hmoves
      cases hmoves
    · obtain ⟨folder, hservers, hmoves, htarget⟩ := moves_server hw hfile hnowhere hmove
      refine does_pure.mpr ⟨trivial, .inr ⟨a, b, folder, ha, hb, ?_, hservers, hmoves, ?_⟩⟩
      · simp only [Path.name_child]
      · exact htarget.imp_left (unused_of_vacancy hb)
  · refine Task.does_refuse.mpr ⟨trivial, hfails _ fun hrenames => ?_⟩
    cases hnowhere.symm.trans (hrenames.free hb).1

/-- Creating puts a new file under a name that is unused, and fails and changes nothing else. A content
that cannot be encoded makes it fail after all. -/
theorem does_createServer_unused (s : Site) (w : World) (name : Option String)
    (content : Option RawText) :
    (s.createServer name content).run.Does (fun _ => True) w fun r v _ =>
      (∃ failure, r = .error failure) ∧ v = w ∧ ¬ s.Unused w name ∨
      ∃ file place, s.Means name file ∧
        r = creation (s.servers.child file) (newContent content) ∧
        w.vacancy (s.servers.child file) = .ok place ∧
        v = w.withFile place (written (newContent content)) := by
  refine (s.does_createServer_ends w name content).mono (fun _ _ => trivial) ?_
  rintro r v es (⟨failure, rfl, rfl, huncreated⟩ | ⟨p, place, hp, hvacancy, rfl, rfl⟩)
  · refine .inl ⟨⟨failure, rfl⟩, rfl, fun hunused => ?_⟩
    have ⟨file, _, hmeans, _⟩ := hunused
    obtain ⟨place, hvacancy⟩ := hunused.vacancy_eq hmeans
    have hpath := hmeans.serverPath_eq
    cases huncreated with
    | misnamed goes => cases goes.symm.trans hpath
    | looped goes loop =>
      obtain rfl := Except.ok.inj (goes.symm.trans hpath)
      have hfollowed := (vacancy_eq_ok_iff.mp hvacancy).1.followed
      cases loop.symm.trans (Tree.resolve_of_leads (Tree.walk_eq_ok_iff.mp hfollowed).2)
    | taken goes fault =>
      obtain rfl := Except.ok.inj (goes.symm.trans hpath)
      cases hvacancy.symm.trans fault
  · rcases s.serverPath_cases name with ⟨file, hmeans, hpath⟩ | ⟨refusal, -, -, hpath⟩
    · obtain rfl := Except.ok.inj (hp.symm.trans hpath)
      exact .inr ⟨file, place, hmeans, rfl, hvacancy, rfl⟩
    · cases hp.symm.trans hpath

/-- Creating a server file leaves every entry alone, whatever it is, and renaming one leaves all but
stray links alone; either fails rather than take a name that it leaves alone. -/
theorem spares_all_but_stray_links (hw : w.Sound) (s : Site) (old new : Option String) :
    (s.renameServer old new).run.Does (fun _ => True) w
      (fun r v _ => s.Relocates w old new r v) ∧
    ∀ content, (s.createServer new content).run.Does (fun _ => True) w fun r v _ =>
      (∃ failure, r = .error failure) ∧ v = w ∧ ¬ s.Unused w new ∨
      ∃ file place, s.Means new file ∧ r = creation (s.servers.child file) (newContent content) ∧
        w.tree.get? place = none ∧ v = w.withFile place (written (newContent content)) := by
  refine ⟨does_renameServer_relocates hw s old new, fun content => ?_⟩
  refine (s.does_createServer_unused w new content).mono (fun _ hv => hv) fun r v es hends => ?_
  refine hends.imp_right ?_
  rintro ⟨file, place, hmeans, hr, hvacant, hv⟩
  exact ⟨file, place, hmeans, hr, (vacancy_eq_ok_iff.mp hvacant).2, hv⟩

/-- A link to a file, and a link to nothing, in the folder of servers. -/
def straying : World :=
  { staffed with
    tree := ⟨[(["s"], .folder), (["x"], .file [120] 0o644 .lately),
      (["s", "a.conf"], .link "/x"), (["s", "b.conf"], .link "nowhere")]⟩ }

private theorem straying_sound : straying.Sound := ⟨Tree.sound_of_entries (by decide), rfl⟩

private theorem straying_servers :
    straying.tree.walk true straying.here staffedSite.servers = .ok ["s"] := by cbv

private theorem means_straying : staffedSite.Means (some "a") "a.conf" ∧
    staffedSite.Means (some "b") "b.conf" ∧ staffedSite.Means (some "c") "c.conf" :=
  ⟨⟨rfl, by decide⟩, ⟨rfl, by decide⟩, rfl, by decide⟩

theorem spares_all_but_stray_links_straying : straying.Sound ∧
    ∃ v, (staffedSite.renameServer (some "a") (some "c")).run.run straying
        = (.ok ("a.conf", "c.conf"), v) ∧
      straying.tree.Moves ["s", "a.conf"] ["s", "c.conf"] v.tree := by
  obtain ⟨hmeans, -, hmeans'⟩ := means_straying
  have hrenames : staffedSite.Renamable straying (some "a") (some "c") :=
    ⟨⟨_, [120], hmeans, by cbv⟩, .inl ⟨_, ["s", "c.conf"], hmeans', by cbv, by decide⟩⟩
  refine ⟨straying_sound, ?_⟩
  obtain ⟨-, -, hnot⟩ | ⟨a, b, folder, ha, hb, hr, hfolder, hmoves, -⟩ :=
    (spares_all_but_stray_links straying_sound staffedSite (some "a") (some "c")).1.ends
  · exact absurd hrenames hnot
  · obtain rfl := ha.unique hmeans
    obtain rfl := hb.unique hmeans'
    obtain rfl := Except.ok.inj (hfolder.symm.trans straying_servers)
    exact ⟨_, Prod.ext hr rfl, hmoves⟩

/-- The link under the new name is gone after a renaming, where creating a file would have refused
the name. -/
theorem rename_replaces_stray_link :
    straying.tree.get? ["s", "b.conf"] = some (.link "nowhere") ∧
      (∃ v, (staffedSite.renameServer (some "a") (some "b")).run.run straying
          = (.ok ("a.conf", "b.conf"), v) ∧ v.tree.get? ["s", "b.conf"] = some (.link "/x")) ∧
      ∃ failure, (staffedSite.createServer (some "b") none).run.run straying
        = (.error failure, straying) := by
  obtain ⟨hmeans, hmeans', -⟩ := means_straying
  have hwalk : straying.tree.walk false straying.here (staffedSite.servers.child "b.conf")
      = .ok ["s", "b.conf"] := by cbv
  have hstray : staffedSite.Stray straying "b.conf" :=
    ⟨by cbv, ["s", "b.conf"], "nowhere", hwalk, by decide⟩
  have hrenames : staffedSite.Renamable straying (some "a") (some "b") :=
    ⟨⟨_, [120], hmeans, by cbv⟩, .inr ⟨_, hmeans', hstray, ["s", "nowhere"], by cbv⟩⟩
  refine ⟨by decide, ?_, ?_⟩
  · obtain ⟨-, -, hnot⟩ | ⟨a, b, folder, ha, hb, hr, hfolder, hmoves, -⟩ :=
      (does_renameServer_relocates straying_sound staffedSite (some "a") (some "b")).ends
    · exact absurd hrenames hnot
    · obtain rfl := ha.unique hmeans
      obtain rfl := hb.unique hmeans'
      obtain rfl := Except.ok.inj (hfolder.symm.trans straying_servers)
      exact ⟨_, Prod.ext hr rfl, hmoves.same⟩
  · obtain ⟨⟨failure, hr⟩, hsame, -⟩ | ⟨file, place, hfile, -, hvacant, -⟩ :=
      (staffedSite.does_createServer_unused straying (some "b") none).ends
    · exact ⟨failure, Prod.ext hr hsame⟩
    · obtain rfl := hfile.unique hmeans'
      obtain ⟨hlands, hnone⟩ := vacancy_eq_ok_iff.mp hvacant
      obtain rfl := Except.ok.inj (hlands.walk.symm.trans hwalk)
      exact absurd hnone (by decide)

end Site
end ConfigSteward
