import Mathlib
import ConfigSteward.Proofs.Site.Changes
import ConfigSteward.Proofs.Site.Restoring
import ConfigSteward.Proofs.World.Noon

/-!
# Where calls reach

Whatever names calls are given, in a tree of files and folders they reach the primary configuration,
server files under other names than that one's, and backups, even if all of these lie in one folder.
The primary configuration changes only when it is saved or when one of its own backups is restored,
and a call that refuses a name leaves the tree as it was.
-/
namespace ConfigSteward

open Plan

/-- The place of the entry that a path names, in the folder of its parent. -/
def Path.entry (here : Place) (p : Path) : Place := p.parent.placeFrom here ++ [p.name]

/-- The file or link at a place; a folder counts as nothing. -/
def Tree.file? (t : Tree) (q : Place) : Option Node :=
  match t.get? q with
  | some .folder => none
  | node => node

/-- Programs that touch no file and whose failures are none of the service's own refusals. -/
structure Programs.Harmless (programs : Programs) : Prop where
  quiet : ∀ ran args tree, (programs ran args tree).2 = tree
  unrefusing : ∀ ran args tree refusal, (programs ran args tree).1 ≠ .error (.refused refusal)

namespace World

variable {w v u : World} {p : Path} {place goal q : Place} {mode : Nat} {touched : Place → Prop}

/-- A path that lands names the entry at its place. -/
theorem Regular.entry_eq (hw : w.Regular) (h : w.Lands p place) : place = p.entry w.here := by
  obtain ⟨folder, hwalk, -, -, hplace⟩ := h.split hw.sound
  rw [hplace, Path.entry, hw.place_eq hwalk]

theorem Regular.placeFrom_eq (hw : w.Regular) (h : w.Lands p place) :
    p.placeFrom w.here = p.entry w.here := (hw.place_eq h.walk).symm.trans (hw.entry_eq h)

theorem Alters.file?_eq (h : w.Alters v touched) (hq : ¬ touched q) :
    v.tree.file? q = w.tree.file? q := by
  rcases h.entry q hq with heq | ⟨hnone, hfolder⟩
  · simp only [Tree.file?, heq]
  · simp only [Tree.file?, hnone, hfolder]

/-- A file that is put in the place of another is at the entry that the path names. -/
theorem Replaces.placeFrom_eq (h : w.Replaces p u goal mode) (hw : w.Regular) :
    p.placeFrom w.here = p.entry w.here := by
  have hplace := (h.dug.regular hw).placeFrom_eq (h.lands_goal hw)
  rwa [h.dug.here_eq] at hplace

end World

/-- A save touches the entry that its path names and a new backup at most. -/
theorem Save.Ends.enters {s : Save} {store : Store} {c : Controller} {w v : World}
    {prior : Option Bytes} {name : String} {place : Place} {r : Except Failure Outcome}
    {es : List Execution} (h : s.Ends store c w prior name place r v es) (hw : w.Regular)
    (hs : ".." ∉ store.folder) :
    w.Alters v fun q => q = s.path.entry w.here ∨ store.Free w q := by
  have halters := (h.settles hw hs).1
  have hwrites {u : World} {goal : Place} {mode : Nat}
      (writes : s.Writes store w prior name place u goal mode) :
      w.Alters v fun q => q = s.path.entry w.here ∨ store.Free w q :=
    halters.mono fun q hq => hq.imp_left fun heq =>
      heq.trans (writes.replaces.placeFrom_eq (writes.backs.regular hw))
  cases h with
  | looped => exact .of_alike (.refl w)
  | refused message hv => exact .of_alike (World.alike_of_noting hv)
  | unwritten message backs dug =>
    exact ((backs.slot.alters hw hs (prior.getD [])).trans (.of_dug dug)).mono fun _ hq => .inr hq
  | rejected writes | accepted writes | reloaded writes => exact hwrites writes

/-- A task alters the touched places alone, and where it refuses a name it has changed no file. -/
structure Confines {α : Type} (w : World) (touched : Place → Prop) (r : Except Failure α)
    (v : World) : Prop where
  alters : w.Alters v touched
  rejects : ∀ refusal, r = .error (.refused refusal) → refusal.kind = .invalidName →
    v.tree = w.tree

namespace Confines

variable {α β : Type} {w v : World} {touched touched' : Place → Prop} {r : Except Failure α}

theorem same (h : w.Alike v) : Confines w touched r v := ⟨.of_alike h, fun _ _ _ => h.1⟩

theorem ok {a : α} (h : w.Alters v touched) : Confines w touched (.ok a) v := ⟨h, nofun⟩

/-- A refusal that is about something else than a name. -/
theorem refused {refusal : Refusal} (h : w.Alters v touched) (hkind : refusal.kind ≠ .invalidName) :
    Confines w touched (.error (.refused refusal) : Except Failure α) v := by
  refine ⟨h, ?_⟩
  rintro _ ⟨⟩ heq
  exact absurd heq hkind

theorem mono (h : Confines w touched r v) (htouched : ∀ q, touched q → touched' q) :
    Confines w touched' r v := ⟨h.alters.mono htouched, h.rejects⟩

theorem map (h : Confines w touched r v) (f : α → β) : Confines w touched (r.map f) v := by
  cases r with
  | ok a => exact .ok h.alters
  | error failure =>
    refine ⟨h.alters, fun refusal hrefusal => h.rejects refusal ?_⟩
    rw [Except.error.inj hrefusal]

end Confines

namespace Store

variable {s : Store} {w : World}

/-- Taking a backup away touches its place alone, and refuses a name before it changes anything. -/
theorem does_delete_confines (hw : w.Regular) (hs : ".." ∉ s.folder) (name : String) :
    (s.delete name).run.Does (fun _ => True) w fun r v _ => Confines w s.Owns r v := by
  rw [delete]
  refine does_andThen.mpr ((does_find hw hs name).mono (fun _ _ => trivial) ?_)
  rintro (failure | path) v es ⟨rfl, rfl, hpath⟩
  · exact ⟨trivial, .same (.refl v)⟩
  · obtain ⟨-, hends, rfl⟩ := hpath path rfl
    have halters : v.Alters (v.unlink (s.pathOf name)).2 s.Owns :=
      (hw.unlink_alters (s.pathOf name)).mono fun q hq =>
        ⟨name, hends, hq.trans (placeFrom_pathOf hs hends v.here)⟩
    refine does_andThen.mpr (Task.does_attemptFile.mpr (FileTask.does_unlink.mpr
      ⟨trivial, trivial, ?_⟩))
    rcases (v.unlink (s.pathOf name)).1 with f | ⟨⟩
    · by_cases hf : f.cause = .noEntry
      · simp only [hf, if_true]
        exact Task.does_refuse.mpr ⟨trivial, .refused halters (by simp [noBackup])⟩
      · simp only [hf, if_false]
        exact Task.does_refuse.mpr ⟨trivial, .refused halters (by simp [Refusal.fileAccess])⟩
    · exact does_pure.mpr ⟨trivial, .ok halters⟩

end Store

namespace Site

variable {s : Site} {w v : World} {c : Call} {p : Path} {here q : Place} {name : String}

/-- The place of a server file under another name than the primary configuration's. -/
def ServerEntry (s : Site) (here : Place) (q : Place) : Prop :=
  ∃ file, Name.Safe file ∧ Name.isServerFile file = true ∧ file ≠ s.config.name ∧
    q = s.servers.placeFrom here ++ [file]

/-- The places that calls reach. -/
def Reached (s : Site) (here : Place) (q : Place) : Prop :=
  q = s.config.entry here ∨ s.ServerEntry here q ∨ s.store.Owns q

/-- A call that may change the primary configuration. -/
def Call.Rewrites (s : Site) : Call → Prop
  | .saveConfig _ => True
  | .restoreBackup name => Name.artifactOf name = .ok s.config.name
  | _ => False

/-- The places that one call may change. -/
def Call.Reach (s : Site) (here : Place) (c : Call) (q : Place) : Prop :=
  c.Rewrites s ∧ q = s.config.entry here ∨ s.ServerEntry here q ∨ s.store.Owns q

/-- A server file is named by a safe name other than the primary configuration's. -/
theorem file_of_serverPath {name : Option String} (h : s.serverPath name = .ok p) :
    ∃ file, Name.Safe file ∧ Name.isServerFile file = true ∧ file ≠ s.config.name ∧
      p = s.servers.child file := by
  unfold serverPath at h
  split at h
  · cases h
  · next file hfile =>
    split at h
    · cases h
    · next hfree =>
      cases h
      obtain ⟨hsafe, -, hserver⟩ := Name.normalizeServer_spec hfile
      exact ⟨file, hsafe, hserver, hfree, rfl⟩

private theorem serverEntry_of_serverPath {name : Option String} (h : s.serverPath name = .ok p)
    (here : Place) : s.ServerEntry here (p.placeFrom here) := by
  obtain ⟨file, hsafe, hserver, hfree, rfl⟩ := file_of_serverPath h
  exact ⟨file, hsafe, hserver, hfree, Path.placeFrom_child _ _ hsafe.noUp⟩

private theorem entry_of_serverPath {name : Option String} (h : s.serverPath name = .ok p)
    (here : Place) : p.entry here = p.placeFrom here := by
  obtain ⟨file, hsafe, -, -, rfl⟩ := file_of_serverPath h
  rw [Path.entry, Path.parent_child, Path.name_child, Path.placeFrom_child _ _ hsafe.noUp]

/-- A backup goes back to the primary configuration, if it is one of its own, or to a server file. -/
theorem restoreTarget_spec (hname : Name.Safe name) (h : s.restoreTarget name = .ok p) :
    Name.artifactOf name = .ok s.config.name ∧ p = s.config ∨
      ∃ file, Name.artifactOf name = .ok file ∧ Name.Safe file ∧ Name.isServerFile file = true ∧
        file ≠ s.config.name ∧ p = s.servers.child file := by
  unfold restoreTarget at h
  split at h
  · cases h
  · next artifact hartifact =>
    split at h
    · next hown =>
      cases h
      exact .inl ⟨hown ▸ hartifact, rfl⟩
    · next hfree =>
      split at h
      · next hgood =>
        cases h
        obtain ⟨hserver, hsafe⟩ := Bool.and_eq_true_iff.mp hgood
        refine .inr ⟨artifact, hartifact, .of_isSafe hsafe fun hlast => ?_, hserver, hfree, rfl⟩
        have hmem := Name.mem_of_artifactOf hartifact _ (List.mem_of_getLast? hlast)
        exact absurd (hname.chars _ hmem) (by decide)
      · cases h

/-- What a task gives is made an answer, and the task keeps to what is within reach. -/
theorem does_answer_confines {α : Type} {task : Task α} {f : α → Answer}
    {touched touched' : Place → Prop}
    (h : task.run.Does (fun _ => True) w fun r v _ => Confines w touched r v)
    (htouched : ∀ q, touched q → touched' q) :
    (task >>= fun a => pure (f a)).run.Does (fun _ => True) w fun r v _ =>
      Confines w touched' r v := by
  refine (does_answer (f := f) h).mono (fun _ hv => hv) ?_
  rintro r v es ⟨r', rfl, hr⟩
  exact (hr.map f).mono htouched

section
variable (hw : w.Regular) (hs : ".." ∉ s.store.folder)
include hw

theorem does_createServer_confines (name : Option String) (content : Option RawText) :
    (s.createServer name content).run.Does (fun _ => True) w fun r v _ =>
      Confines w (s.ServerEntry w.here) r v := by
  refine (s.does_createServer_ends w name content).mono (fun _ _ => trivial) ?_
  rintro r v es (⟨failure, -, rfl, -⟩ | ⟨p, place, hp, hvacancy, rfl, rfl⟩)
  · exact .same (.refl v)
  obtain ⟨hlands, -⟩ := World.vacancy_eq_ok_iff.mp hvacancy
  have hset : w.tree.Sets place _ (w.withFile place (written (newContent content))).tree :=
    Tree.put_sets hlands.ne_nil _
  have hentry : s.ServerEntry w.here place :=
    hw.place_eq hlands.walk ▸ serverEntry_of_serverPath hp w.here
  refine ⟨.of_sets hset rfl hlands.leaf (Tree.skeleton_of_file hset.self) hentry, ?_⟩
  intro refusal hrefused
  cases hcontent : newContent content with
  | whole text => simp [hcontent, creation, Except.map, Except.mapError] at hrefused
  | broken text => simp [hcontent, creation, Except.map, Except.mapError] at hrefused

/-- Moving a file touches the places of the two paths. -/
theorem move_alters_places (source target : Path) :
    w.Alters (w.move source target).2
      fun q => q = source.placeFrom w.here ∨ q = target.placeFrom w.here := by
  rcases hw.move_cases source target with
    ⟨f, hmove⟩ | ⟨origin, goal, bytes, mode, changed, hsource, htarget, hfile, hmove⟩
  · rw [hmove]
    exact .of_alike (.refl w)
  rw [hmove]
  by_cases hsame : origin = goal
  · simp only [hsame, if_true]
    exact .of_alike (.refl w)
  simp only [hsame, if_false]
  have hremove := Tree.remove_sets (t := w.tree) hsource.ne_nil
  have hput := Tree.put_sets (t := w.tree.remove origin) htarget.ne_nil (.file bytes mode changed)
  have hleaf : (w.tree.remove origin).skeleton goal = none :=
    (Tree.skeleton_congr (hremove.other (Ne.symm hsame))).trans htarget.leaf
  have hfirst : w.Alters { w with tree := w.tree.remove origin }
      fun q => q = source.placeFrom w.here ∨ q = target.placeFrom w.here :=
    .of_sets hremove rfl hsource.leaf (Tree.skeleton_of_vacant hremove.self)
      (.inl (hw.place_eq hsource.walk))
  exact hfirst.trans (.of_sets hput rfl hleaf (Tree.skeleton_of_file hput.self)
    (.inr (hw.place_eq htarget.walk)))

theorem does_renameServer_confines (old new : Option String) :
    (s.renameServer old new).run.Does (fun _ => True) w fun r v _ =>
      Confines w (s.ServerEntry w.here) r v := by
  have hrefuse {refusal : Refusal} : (Task.refuse refusal : Task (String × String)).run.Does
      (fun _ => True) w fun r v _ => Confines w (s.ServerEntry w.here) r v :=
    Task.does_refuse.mpr ⟨trivial, .same (.refl w)⟩
  rw [renameServer]
  split
  · exact hrefuse
  refine does_andThen.mpr (does_serverPathTask.mpr ⟨trivial, ?_⟩)
  rcases hsource : s.serverPath old with refusal | source
  · exact ⟨trivial, .same (.refl w)⟩
  refine does_andThen.mpr (does_serverPathTask.mpr ⟨trivial, ?_⟩)
  rcases htarget : s.serverPath new with refusal | target
  · exact ⟨trivial, .same (.refl w)⟩
  refine Lock.does_hold _ trivial (fun _ => .same (.refl w)) ?_
  refine does_andThen.mpr (Task.does_ofFile.mpr (FileTask.does_leads.mpr ⟨trivial, ?_⟩))
  rcases FileTask.leadsIn w source _ with f | (_ | _)
  · exact ⟨trivial, .same (.refl w)⟩
  · exact hrefuse
  refine does_andThen.mpr (Task.does_ofFile.mpr (FileTask.does_leads.mpr ⟨trivial, ?_⟩))
  rcases FileTask.leadsIn w target _ with f | (_ | _)
  · exact ⟨trivial, .same (.refl w)⟩
  · refine does_andThen.mpr (Task.does_ofFileOr.mpr (FileTask.does_move.mpr ⟨trivial, trivial, ?_⟩))
    have halters : w.Alters (w.move source target).2 (s.ServerEntry w.here) :=
      (move_alters_places hw source target).mono fun q hq => by
        rcases hq with rfl | rfl
        · exact serverEntry_of_serverPath hsource w.here
        · exact serverEntry_of_serverPath htarget w.here
    rcases (w.move source target).1 with f | ⟨⟩
    · exact ⟨trivial, .refused halters (by simp [Refusal.fileAccess])⟩
    · exact does_pure.mpr ⟨trivial, .ok halters⟩
  · exact hrefuse

include hs

theorem BacksUp.owned {r : Except Failure (Option String)} (h : s.BacksUp w p r v) :
    w.Alters v s.store.Owns := (h.alters_free hw hs).mono fun _ hq => hq.1

theorem does_deleteServer_confines (name : Option String) :
    (s.deleteServer name).run.Does (fun _ => True) w fun r v _ =>
      Confines w (fun q => s.ServerEntry w.here q ∨ s.store.Owns q) r v := by
  rw [deleteServer]
  refine does_andThen.mpr (does_serverPathTask.mpr ⟨trivial, ?_⟩)
  rcases hp : s.serverPath name with refusal | p
  · exact ⟨trivial, .same (.refl w)⟩
  refine Lock.does_hold _ trivial (fun _ => .same (.refl w)) ?_
  refine does_andThen.mpr (Task.does_ofFile.mpr (FileTask.does_leads.mpr ⟨trivial, ?_⟩))
  rcases FileTask.leadsIn w p _ with f | (_ | _)
  · exact ⟨trivial, .same (.refl w)⟩
  · exact Task.does_refuse.mpr ⟨trivial, .same (.refl w)⟩
  refine does_andThen.mpr ((s.does_backUpIfPossible w p).mono (fun _ _ => trivial) ?_)
  rintro r u es ⟨⟨backup, rfl⟩, hbacks⟩
  have hbacked : w.Alters u fun q => s.ServerEntry w.here q ∨ s.store.Owns q :=
    (hbacks.owned hw hs).mono fun _ hq => .inr hq
  have htaken : w.Alters (u.unlink p).2 fun q => s.ServerEntry w.here q ∨ s.store.Owns q := by
    refine hbacked.trans (((hbacks.regular hw).unlink_alters p).mono fun q hq => .inl ?_)
    rw [hq, hbacked.here]
    exact serverEntry_of_serverPath hp w.here
  refine does_andThen.mpr (Task.does_attemptFile.mpr (FileTask.does_unlink.mpr
    ⟨trivial, trivial, ?_⟩))
  rcases (u.unlink p).1 with f | ⟨⟩
  · dsimp only
    split
    · exact Task.does_refuse.mpr ⟨trivial, .refused htaken (by simp [noFile])⟩
    · exact Task.does_refuse.mpr ⟨trivial, .refused htaken (by simp [Refusal.fileAccess])⟩
  · exact does_pure.mpr ⟨trivial, .ok htaken⟩

theorem does_save_confines {save : Save} (h : c.save? s = some save) (hquiet : w.Quiet) :
    (s.call c).run.Does (fun _ => True) w fun r v _ =>
      Confines w (fun q => q = save.path.entry w.here ∨ s.store.Owns q) r v := by
  obtain ⟨prior, name, place, hdoes⟩ := does_save h hw hquiet
  refine hdoes.mono (fun _ _ => trivial) ?_
  rintro r v es ⟨r', rfl, hends⟩
  have halters := (hends.enters hw hs).mono fun _ hq => hq.imp_right fun hfree => hfree.1
  refine ⟨halters, fun refusal hrefusal => ?_⟩
  -- A save that runs answers with an outcome; only a lock can keep it from running.
  cases hends with
  | looped => cases hrefusal
  | _ => cases hrefusal

theorem does_createBackup_confines :
    s.createBackup.run.Does (fun _ => True) w fun r v _ => Confines w s.store.Owns r v := by
  refine (s.does_createBackup w).mono (fun _ _ => trivial) ?_
  intro r v es hbacks
  refine ⟨hbacks.owned hw hs, ?_⟩
  rintro refusal rfl -
  cases hbacks with
  | without hv => exact (World.alike_of_noting hv).1

theorem does_restoreBackup_confines (hprograms : w.programs.Harmless) (name : String) :
    (s.restoreBackup name).run.Does (fun _ => True) w fun r v _ =>
      Confines w (Call.Reach s w.here (.restoreBackup name)) r v := by
  refine (s.does_restoreBackup_ends hw hs hprograms.quiet name).mono (fun _ _ => trivial)
    fun r v es hends => ?_
  have howned {target : Path} {r : Except Failure (Option String)} {u : World}
      (backs : s.BacksUp w target r u) : w.Alters u (Call.Reach s w.here (.restoreBackup name)) :=
    (backs.owned hw hs).mono fun _ hq => .inr (.inr hq)
  cases hends with
  | missed => exact .same (.refl w)
  | unbacked failure _ backs =>
    refine ⟨howned backs, fun _ _ _ => ?_⟩
    cases backs with
    | without hv => exact (World.alike_of_noting hv).1
  | unwritten message goes backs dug =>
    exact .refused ((howned backs).trans (.of_dug dug)) (by simp [Refusal.fileAccess])
  | @checked target content backup u y x goal mode args _ found goes _ backs _ replaces hx =>
    have hu := backs.regular hw
    have hreached : ∀ q, q = target.placeFrom u.here →
        Call.Reach s w.here (.restoreBackup name) q := by
      rintro q rfl
      rw [(howned backs).here] at *
      rcases restoreTarget_spec found.1 goes with
        ⟨hown, rfl⟩ | ⟨file, -, hfile, hserver, hfree, rfl⟩
      · exact .inl ⟨hown, (howned backs).here ▸ replaces.placeFrom_eq hu⟩
      · exact .inr (.inl ⟨file, hfile, hserver, hfree, Path.placeFrom_child _ _ hfile.noUp⟩)
    have halters := (howned backs).trans ((replaces.alters hu content).mono hreached)
    rw [← hx] at halters
    have hchecked : w.Alters (x.hasRun args) (Call.Reach s w.here (.restoreBackup name)) :=
      halters.trans (.of_alike ⟨rfl, rfl⟩)
    have hframe : x.programs = w.programs := by
      obtain ⟨t, -, rfl⟩ := replaces.dug
      rw [hx]
      exact backs.programs_eq
    rcases hreply : x.replyTo args with failure | result
    · refine ⟨hchecked, ?_⟩
      rintro refusal ⟨⟩
      rw [World.replyTo, hframe] at hreply
      exact absurd hreply (hprograms.unrefusing _ _ _ refusal)
    · exact .ok hchecked

/-- Every call keeps to the places within its reach. -/
theorem does_call_confines (hprograms : w.programs.Harmless) (c : Call) :
    (s.call c).run.Does (fun _ => True) w fun r v _ => Confines w (c.Reach s w.here) r v := by
  have hreads (hc : c.Reads) :
      (s.call c).run.Does (fun _ => True) w fun r v _ => Confines w (c.Reach s w.here) r v := by
    refine ⟨fun _ _ => trivial, .same ?_⟩
    rw [s.still_call hc]
    exact .refl w
  have hserver {c : Call} (q : Place) (hq : s.ServerEntry w.here q) : c.Reach s w.here q :=
    .inr (.inl hq)
  have howned {c : Call} (q : Place) (hq : s.store.Owns q) : c.Reach s w.here q := .inr (.inr hq)
  have hquiet : w.Quiet := hprograms.quiet
  have hfails {c : Call} (failure : Failure) : (throw failure : Task Answer).run.Does
      (fun _ => True) w fun r v _ => Confines w (c.Reach s w.here) r v :=
    does_throw.mpr ⟨trivial, .same (.refl w)⟩
  cases c with
  | readConfig | listServers | readServer | listBackups | readBackup => exact hreads trivial
  | saveConfig content =>
    obtain ⟨save, hsave⟩ | ⟨failure, hfailure⟩ := s.save_or_failure (c := .saveConfig content) trivial
    · refine (does_save_confines hw hs hsave hquiet).mono
        (fun _ hv => hv) fun r v es hr => hr.mono fun q hq => ?_
      rw [Call.path_saveConfig hsave] at hq
      exact hq.elim (fun heq => .inl ⟨trivial, heq⟩) (howned q)
    · exact hfailure ▸ hfails failure
  | saveServer name content =>
    obtain ⟨save, hsave⟩ | ⟨failure, hfailure⟩ :=
      s.save_or_failure (c := .saveServer name content) trivial
    · refine (does_save_confines hw hs hsave hquiet).mono (fun _ hv => hv)
        fun r v es hr => hr.mono fun q hq => ?_
      have hp := Call.path_saveServer hsave
      refine hq.elim (fun heq => hserver q ?_) (howned q)
      rw [heq, entry_of_serverPath hp]
      exact serverEntry_of_serverPath hp w.here
    · exact hfailure ▸ hfails failure
  | testConfig =>
    refine (does_answer (f := .tested) (Controller.does_run hquiet
      (s.controller.validateArgs (some s.config.text)))).mono (fun _ _ => trivial) ?_
    rintro r v es ⟨r', rfl, -, rfl, -⟩
    exact .same ⟨rfl, rfl⟩
  | createServer name content =>
    exact does_answer_confines (does_createServer_confines hw name content) hserver
  | renameServer old new =>
    exact does_answer_confines (does_renameServer_confines hw old new) hserver
  | deleteServer name =>
    exact does_answer_confines (does_deleteServer_confines hw hs name) fun _ hq => .inr hq
  | createBackup => exact does_answer_confines (does_createBackup_confines hw hs) howned
  | deleteBackup name =>
    exact does_answer_confines (s.store.does_delete_confines hw hs name) howned
  | restoreBackup name =>
    exact does_answer_confines (does_restoreBackup_confines hw hs hprograms name) fun _ hq => hq

end

/-! ### Runs -/

variable {st : Step} {steps : List Step}

theorem advance_confines (hw : w.Regular) (hs : ".." ∉ s.store.folder)
    (hst : st.programs.Harmless) :
    Confines w (st.call.Reach s w.here) (s.calls.reply w st) (s.calls.advance w st) := by
  have hmeets : (st.meets w).Regular := hw.of_alike (st.meets_alike w)
  have hdoes := (does_call_confines hmeets hs hst st.call).ends
  exact ⟨.trans (.of_alike (st.meets_alike w)) hdoes.alters, hdoes.rejects⟩

/-- The primary configuration is within reach of the calls that rewrite it alone. -/
theorem Call.Reach.rewrites (h : c.Reach s here (s.config.entry here))
    (hconfig : Name.endsIn Name.backupSuffix s.config.name = false) : c.Rewrites s := by
  rcases h with ⟨hrewrites, -⟩ | ⟨file, -, -, hfree, heq⟩ | ⟨name, hends, heq⟩
  · exact hrewrites
  · exact absurd (List.singleton_inj.mp (List.append_inj_right' heq rfl)).symm hfree
  · rw [List.singleton_inj.mp (List.append_inj_right' heq rfl), hends] at hconfig
    cases hconfig

/-- At every step of a run the files that come, go or change are the primary configuration, server
files under other names and backups, the primary configuration only when it is saved or a backup of
it is restored; and a name that is refused leaves the tree as it was. -/
theorem calls_contained (hw : w.Regular) (hs : ".." ∉ s.store.folder)
    (hconfig : Name.endsIn Name.backupSuffix s.config.name = false)
    (hsteps : ∀ st' ∈ steps ++ [st], st'.programs.Harmless) :
    (∀ q, (s.calls.after w (steps ++ [st])).tree.file? q ≠ (s.calls.after w steps).tree.file? q →
      s.Reached w.here q) ∧
    ((s.calls.after w (steps ++ [st])).tree.file? (s.config.entry w.here)
        ≠ (s.calls.after w steps).tree.file? (s.config.entry w.here) → st.call.Rewrites s) ∧
    ∀ refusal, s.calls.reply (s.calls.after w steps) st = .error (.refused refusal) →
      refusal.kind = .invalidName →
      (s.calls.after w (steps ++ [st])).tree = (s.calls.after w steps).tree := by
  have hregular : (s.calls.after w steps).Regular :=
    regular_after hw fun st' hst' => (hsteps st' (List.mem_append_left _ hst')).quiet
  have hconfines := advance_confines (s := s) hregular hs (hsteps st (by simp))
  rw [after_here] at hconfines
  simp only [Calls.after_append, Calls.after_cons, Calls.after_nil]
  have hreach (q : Place) (hq : (s.calls.advance (s.calls.after w steps) st).tree.file? q
      ≠ (s.calls.after w steps).tree.file? q) : st.call.Reach s w.here q := by
    by_contra hout
    exact hq (hconfines.alters.file?_eq hout)
  refine ⟨fun q hq => (hreach q hq).imp_left And.right, fun hq => ?_, hconfines.rejects⟩
  exact (hreach _ hq).rewrites hconfig

/-- A site with everything in one folder. -/
def crowded : Site := ⟨⟨.one, ["d", "n.conf"]⟩, ⟨.one, ["d"]⟩, ⟨["d"]⟩, {}⟩

def crowdedRoom : World :=
  .atNoon ⟨[(["d"], .folder), (["d", "n.conf"], .file [110] 0o644 .lately)]⟩

/-- A call whose programs cannot be run. -/
def unaided (c : Call) : Step := ⟨0, .replying (.error .noFileNamed), c⟩

/-- A server file may not be given the primary configuration's name. -/
theorem calls_contained_crowded :
    crowdedRoom.Regular ∧ ".." ∉ crowded.store.folder ∧
      Name.endsIn Name.backupSuffix crowded.config.name = false ∧
      (∀ st ∈ [unaided (.createServer (some "a") (some "x"))]
        ++ [unaided (.renameServer (some "a") (some "n"))], st.programs.Harmless) ∧
      (crowded.calls.after crowdedRoom ([unaided (.createServer (some "a") (some "x"))]
        ++ [unaided (.renameServer (some "a") (some "n"))])).tree
        = (crowded.calls.after crowdedRoom [unaided (.createServer (some "a") (some "x"))]).tree := by
  have hregular : crowdedRoom.Regular :=
    ⟨⟨Tree.sound_of_entries (by decide), rfl⟩, Tree.linkless_of_entries (by simp [crowdedRoom])⟩
  have hsteps : ∀ st ∈ [unaided (.createServer (some "a") (some "x"))]
      ++ [unaided (.renameServer (some "a") (some "n"))], st.programs.Harmless := by
    intro st hst
    simp only [List.cons_append, List.nil_append, List.mem_cons, List.not_mem_nil, or_false] at hst
    rcases hst with rfl | rfl
    · exact ⟨fun _ _ _ => rfl, nofun⟩
    · exact ⟨fun _ _ _ => rfl, nofun⟩
  have hsource : crowded.serverPath (some "a") = .ok ⟨.one, ["d", "a.conf"]⟩ := rfl
  have htarget : crowded.serverPath (some "n") = .error ⟨.invalidName,
      some "n.conf is reserved for the primary config", [("name", .text "n.conf")]⟩ := rfl
  have hreply (u : World) : ((crowded.call (.renameServer (some "a") (some "n"))).run.run u).1
      = .error (.refused ⟨.invalidName, some "n.conf is reserved for the primary config",
        [("name", .text "n.conf")]⟩) := by
    simp only [call, renameServer, serverPathTask, hsource, htarget]
    rfl
  refine ⟨hregular, by decide, by decide, hsteps, ?_⟩
  exact (calls_contained hregular (by decide) (by decide) hsteps).2.2 _ (hreply _) rfl

end Site
end ConfigSteward
