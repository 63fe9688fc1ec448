import ConfigSteward.Proofs.Backup.Keeping
import ConfigSteward.Proofs.Servers.Runs
import ConfigSteward.Proofs.Site.Effects
import ConfigSteward.Proofs.World.Oblivious
import ConfigSteward.Service

/-!
# Opening the service anew

All that a service keeps besides the files is the readings noted, and to no call does it matter
which they are while the clock does not run backwards. So a service that is opened anew answers as if
it had gone on, if the folder of its backups is still where its settings say.
-/
namespace ConfigSteward

open Plan

/-! ### Opening -/

namespace Store

variable {s : Store} {w v : World} {p : Path}

/-- A store whose folder stands is opened without a change. -/
theorem openIn_run (hplace : w.tree.resolve w.here p = .ok s.folder)
    (hstands : w.Stands s.folder.path) : (openIn p).run.run w = (.ok s, w) := by
  have hdoes : (openIn p).run.Does (fun _ => True) w fun r v _ => r = .ok s ∧ v = w := by
    rw [openIn]
    refine does_andThen.mpr (Task.does_resolve_eq trivial (fun place h => ?_) fun place h => ?_)
    · obtain rfl : place = s.folder := Except.ok.inj (h.symm.trans hplace)
      refine does_andThen.mpr (Task.does_ofFile.mpr
        ((FileTask.does_ensureFolder_stands hstands).mono (fun _ _ => trivial) ?_))
      rintro r v es ⟨rfl, rfl, -⟩
      exact does_pure.mpr ⟨trivial, rfl, rfl⟩
    · exact absurd (h.symm.trans hplace) (by simp)
  exact Prod.ext hdoes.ends.1 hdoes.ends.2

end Store

namespace Service

variable {settings : Settings} {s : Site} {w v : World}

private theorem start_eq_ok_iff : (start settings).run w = (.ok s, v) ↔
    (∃ n, Level.number settings.logLevel = .ok n) ∧
      (Store.openIn settings.backupsDir).run.run w = (.ok s.store, v) ∧
      s = ⟨settings.configPath, settings.serversDir, s.store, controllerOf settings⟩ := by
  unfold start openSite
  rcases Level.number settings.logLevel with f | n
  · simp
  rw [run_bind, ExceptT.run_bind, run_bind]
  rcases (Store.openIn settings.backupsDir).run.run w with ⟨f | store, u⟩
  · simp
  · constructor
    · intro h
      cases h
      exact ⟨⟨n, rfl⟩, rfl, rfl⟩
    · rintro ⟨-, hopened, hs⟩
      cases hopened
      rw [hs]
      rfl

/-- Open the service that settings describe; it knows of no reading noted before. -/
def opened (settings : Settings) (w : World) : Except OpeningFault Site × World :=
  (start settings).run { w with noted := [] }

/-- The folder of backups that the settings name is the store's own and stands. -/
def Anchored (settings : Settings) (s : Site) (w : World) : Prop :=
  w.tree.resolve w.here settings.backupsDir = .ok s.store.folder ∧ w.Stands s.store.folder.path

/-- What an opened service starts from. -/
theorem opened_anchored (h : opened settings w = (.ok s, v)) :
    v.noted = [] ∧ v.clock = w.clock ∧ v.Stands s.store.folder.path ∧
      w.tree.resolve w.here settings.backupsDir = .ok s.store.folder ∧
      { w with noted := [] }.Dug s.store.folder.path v := by
  obtain ⟨-, hopened, -⟩ := start_eq_ok_iff.mp h
  have hdoes := (Store.does_openIn_stands { w with noted := [] } settings.backupsDir).ends
  rw [hopened] at hdoes
  obtain ⟨hplace, hdug, hstands⟩ := hdoes s.store rfl
  refine ⟨?_, ?_, hstands, hplace, hdug⟩
  · obtain ⟨t, -, rfl⟩ := hdug
    rfl
  · obtain ⟨t, -, rfl⟩ := hdug
    rfl

/-- A service that stays anchored is opened as before and without a change to the files. -/
theorem opened_again (h : opened settings w = (.ok s, v)) {u : World} (hu : Anchored settings s u) :
    opened settings u = (.ok s, { u with noted := [] }) := by
  obtain ⟨hlevel, -, hs⟩ := start_eq_ok_iff.mp h
  exact start_eq_ok_iff.mpr ⟨hlevel, Store.openIn_run hu.1 hu.2, hs⟩

end Service

/-! ### Runs -/

namespace Site

variable {settings : Settings} {s : Site} {w v : World} {st : Step} {steps before later : List Step}

private theorem oblivious_call (s : Site) (c : Call) : (s.call c).run.Oblivious :=
  working_call Oblivious.working Oblivious.locking s c

private theorem meets_agrees (h : w.Agrees v) (hclock : w.clock ≤ st.clock) :
    (st.meets w).Agrees (st.meets v) := by
  refine ⟨?_, h.timely.of_clock rfl hclock, h.timely'.of_clock rfl (h.clock_eq ▸ hclock)⟩
  have hv := h.apart
  rw [← hv]
  rfl

/-- A step answers alike in worlds that agree and leaves worlds that agree. -/
theorem advance_agrees (h : w.Agrees v) (hclock : w.clock ≤ st.clock) :
    s.calls.reply v st = s.calls.reply w st ∧ (s.calls.advance w st).Agrees (s.calls.advance v st) :=
  s.oblivious_call st.call _ _ (meets_agrees h hclock)

theorem advance_clock (s : Site) (w : World) (st : Step) : (s.calls.advance w st).clock = st.clock :=
  run_clock _ _

/-- What each step of a run answers and the tree that it leaves. -/
def record (s : Site) (w : World) : List Step → List (Except Failure Answer × Tree)
  | [] => []
  | st :: steps => (s.calls.reply w st, (s.calls.advance w st).tree) :: s.record (s.calls.advance w st) steps

/-- The clock of a run never goes back. -/
def Onward (w : World) (steps : List Step) : Prop :=
  (w.clock :: steps.map Step.clock).Pairwise (· ≤ ·)

theorem Onward.step (h : Onward w (st :: steps)) :
    w.clock ≤ st.clock ∧ Onward (s.calls.advance w st) steps := by
  obtain ⟨hfirst, hrest⟩ := List.pairwise_cons.mp h
  refine ⟨hfirst _ (by simp), ?_⟩
  rw [Onward, advance_clock]
  exact hrest

theorem Onward.front (h : Onward w (before ++ later)) : Onward w before := by
  refine h.sublist (.cons_cons _ ?_)
  rw [List.map_append]
  exact List.sublist_append_left _ _

theorem Onward.after (h : Onward w (before ++ later)) : Onward (s.calls.after w before) later := by
  induction before generalizing w with
  | nil => exact h
  | cons st before ih => exact ih (h.step (s := s)).2

/-- No reading noted in a run is ahead of the clock. -/
theorem timely_after (h : w.Timely) (hclock : Onward w steps) : (s.calls.after w steps).Timely := by
  induction steps generalizing w with
  | nil => exact h
  | cons st steps ih =>
    obtain ⟨hnow, hrest⟩ := hclock.step (s := s)
    exact ih (advance_agrees h.agrees hnow).2.timely hrest

/-- Runs from worlds that agree have one record. -/
theorem record_agrees (h : w.Agrees v) (hclock : Onward w steps) :
    s.record v steps = s.record w steps := by
  induction steps generalizing w v with
  | nil => rfl
  | cons st steps ih =>
    obtain ⟨hnow, hrest⟩ := hclock.step (s := s)
    obtain ⟨hreply, hagrees⟩ := advance_agrees (s := s) h hnow
    rw [record, record, hreply, hagrees.tree_eq, ih hagrees hrest]

/-- Among files and folders, with programs that touch no file, a service stays anchored. -/
theorem anchored_after (hw : w.Regular) (hopen : Service.opened settings w = (.ok s, v))
    (hsteps : ∀ st ∈ steps, (st.meets w).Quiet) :
    Service.Anchored settings s (s.calls.after v steps) := by
  obtain ⟨-, -, hstands, hplace, hdug⟩ := Service.opened_anchored hopen
  have hnoting : { w with noted := [] }.Regular := hw.of_alike ⟨rfl, rfl⟩
  have hv : v.Regular := hdug.regular hnoting
  have hregular : (s.calls.after v steps).Regular := regular_after hv hsteps
  have hhere : (s.calls.after v steps).here = w.here := (after_here s v steps).trans hdug.here_eq
  refine ⟨?_, hstands.mono (below_after hv hsteps) (after_here s v steps)⟩
  rw [hregular.linkless.resolve_eq, hhere, ← hw.linkless.resolve_eq, hplace]

/-- A service that is opened anew at some point of a run answers every later call, and leaves the
files, as it does when it goes on, if the folder of its backups is still where its settings say. So
it is wherever there are no links and the programs touch no file. -/
theorem reopening_transparent (hopen : Service.opened settings w = (.ok s, v))
    (hclock : Onward w (before ++ later))
    (hanchored : Service.Anchored settings s (s.calls.after v before) ∨
      w.Regular ∧ ∀ st ∈ before, (st.meets w).Quiet) :
    ∃ u, Service.opened settings (s.calls.after v before) = (.ok s, u) ∧
      u.tree = (s.calls.after v before).tree ∧
      s.record u later = s.record (s.calls.after v before) later := by
  obtain ⟨hnoted, hnow, -⟩ := Service.opened_anchored hopen
  have hstays : Service.Anchored settings s (s.calls.after v before) := by
    rcases hanchored with hstays | ⟨hw, hquiet⟩
    · exact hstays
    · exact anchored_after hw hopen hquiet
  have hclock' : Onward v (before ++ later) := by rwa [Onward, hnow]
  have hafter : (s.calls.after v before).Timely :=
    timely_after (World.timely_of_fresh hnoted) hclock'.front
  have hagrees : (s.calls.after v before).Agrees { s.calls.after v before with noted := [] } :=
    ⟨rfl, hafter, World.timely_of_fresh rfl⟩
  exact ⟨_, Service.opened_again hopen hstays, rfl, record_agrees hagrees hclock'.after⟩

/-- Settings that name the folder of backups through a server file. -/
def roundabout : Settings where
  configPath := ⟨.one, ["n"]⟩
  serversDir := ⟨.one, ["s"]⟩
  backupsDir := ⟨.one, ["s", "x.conf", "..", "b"]⟩

/-- The site of these settings with its backups in a folder. -/
def roundaboutSite (folder : Place) : Site :=
  ⟨⟨.one, ["n"]⟩, ⟨.one, ["s"]⟩, ⟨folder⟩, { config := some ⟨.one, ["n"]⟩ }⟩

private theorem onward_noon (tree : Tree) (calls : List Call) :
    Onward (.atNoon tree) (calls.map atNoon) := by
  have hnoon : (calls.map atNoon).map Step.clock = List.replicate calls.length World.noon := by
    simp [atNoon, Function.comp_def]
  rw [Onward, hnoon]
  exact List.pairwise_replicate_of_refl (n := calls.length + 1)

private theorem opened_roundabout {folder : Place} (hopened :
    (Store.openIn ⟨.one, ["s", "x.conf", "..", "b"]⟩).run.run { w with noted := [] }
      = (.ok ⟨folder⟩, v)) :
    Service.opened roundabout w = (.ok (roundaboutSite folder), v) := by
  have hlevel : Level.number "info" = .ok 20 := by cbv
  exact Service.start_eq_ok_iff.mpr ⟨⟨20, hlevel⟩, hopened, rfl⟩

/-- A second backup within one second, after the service was opened anew. -/
theorem reopening_transparent_same_second :
    let w := World.atNoon ⟨[(["n"], .file [] 0o644 .lately), (["s"], .folder)]⟩
    let v := { w with tree := w.tree.put ["s", "b"] .folder }
    let s := roundaboutSite ["s", "b"]
    let backup := [atNoon .createBackup]
    Service.opened roundabout w = (.ok s, v) ∧ Onward w (backup ++ backup) ∧
      (w.Regular ∧ ∀ st ∈ backup, (st.meets w).Quiet) ∧
      s.calls.reply v (atNoon .createBackup) = .ok (.backup "n.20240501_120000.backup") ∧
      ∃ u, Service.opened roundabout (s.calls.after v backup) = (.ok s, u) ∧
        u.tree = (s.calls.after v backup).tree ∧
        s.record u backup = s.record (s.calls.after v backup) backup := by
  intro w v s backup
  have hopen : Service.opened roundabout w = (.ok s, v) := opened_roundabout (by cbv)
  have hclock : Onward w (backup ++ backup) := onward_noon _ [_, _]
  have hregular : w.Regular :=
    ⟨⟨Tree.sound_of_entries (by decide), rfl⟩, Tree.linkless_of_entries (by simp [w])⟩
  have hreply : s.calls.reply v (atNoon .createBackup) = .ok (.backup "n.20240501_120000.backup") := by
    cbv
  have hquiet : ∀ st ∈ backup, (st.meets w).Quiet := by
    rintro st hst ran args tree
    obtain rfl := List.mem_singleton.mp hst
    rfl
  exact ⟨hopen, hclock, ⟨hregular, hquiet⟩, hreply,
    reopening_transparent hopen hclock (.inr ⟨hregular, hquiet⟩)⟩

/-- A server file that links to a file in another folder. -/
def diverted : World :=
  .atNoon ⟨[(["d"], .folder), (["d", "f"], .file [] 0o644 .lately), (["s"], .folder),
    (["s", "x.conf"], .link "/d/f")]⟩

/-- The service opened with its backups in that other folder. -/
def divertedOpen : World := { diverted with tree := diverted.tree.put ["d", "b"] .folder }

def divertedBackup : String := "x.conf.20240501_120000.backup"

/-- The link is gone and the file's content backed up. -/
def divertedLeft : World :=
  { divertedOpen with
    tree := (divertedOpen.tree.put ["d", "b", divertedBackup]
      (.file [] World.plainMode .lately)).remove ["s", "x.conf"]
    noted := [("x.conf", ⟨2024, 5, 1, 12, 0, 0⟩)] }

/-- The service opened anew, now with a folder for backups where there was none. -/
def divertedAnew : World :=
  { divertedLeft with tree := divertedLeft.tree.put ["s", "b"] .folder, noted := [] }

/-- Deleting a server file that the settings' path to the backups leads through moves the folder in
which a service that is opened anew looks for them. -/
theorem reopening_loses_backup :
    let s := roundaboutSite ["d", "b"]
    let s' := roundaboutSite ["s", "b"]
    let deleting := atNoon (.deleteServer (some "x"))
    let removing := atNoon (.deleteBackup divertedBackup)
    Service.opened roundabout diverted = (.ok s, divertedOpen) ∧
      Onward diverted [deleting, removing] ∧
      s.calls.reply divertedOpen deleting = .ok (.deleted (some divertedBackup)) ∧
      s.calls.reply (s.calls.after divertedOpen [deleting]) removing = .ok .removed ∧
      Service.opened roundabout (s.calls.after divertedOpen [deleting]) = (.ok s', divertedAnew) ∧
      divertedAnew.tree ≠ (s.calls.after divertedOpen [deleting]).tree ∧
      s'.calls.reply divertedAnew removing = .error (.refused (Store.noBackup divertedBackup)) := by
  intro s s' deleting removing
  have hopen : Service.opened roundabout diverted = (.ok s, divertedOpen) :=
    opened_roundabout (by cbv)
  have hdelete : (s.call (.deleteServer (some "x"))).run.run divertedOpen
      = (.ok (.deleted (some divertedBackup)), divertedLeft) := by cbv
  have hremove : (s.call (.deleteBackup divertedBackup)).run.run divertedLeft
      = (.ok .removed, { divertedLeft with
          tree := divertedLeft.tree.remove ["d", "b", divertedBackup] }) := by cbv
  have hreopen : Service.opened roundabout divertedLeft = (.ok s', divertedAnew) :=
    opened_roundabout (by cbv)
  have hmissing : (s'.call (.deleteBackup divertedBackup)).run.run divertedAnew
      = (.error (.refused (Store.noBackup divertedBackup)), divertedAnew) := by cbv
  have hleft : s.calls.after divertedOpen [deleting] = divertedLeft := congrArg Prod.snd hdelete
  have hfolder : divertedAnew.tree ≠ divertedLeft.tree := by decide
  rw [hleft]
  exact ⟨hopen, onward_noon _ [_, _], congrArg Prod.fst hdelete, congrArg Prod.fst hremove,
    hreopen, hfolder, congrArg Prod.fst hmissing⟩

end Site
end ConfigSteward
