import ConfigSteward.Proofs.Apart.Plans
import ConfigSteward.Proofs.Servers.Contents
import ConfigSteward.Proofs.Site.Containment

/-!
# Calls on server files within a scope

A scope that covers a server file grants the file, the temporary files beside it and the backups
that may be made of it. All that is done to the file is then within the scope.
-/
namespace ConfigSteward

open Plan

/-! ### Readings and backups -/

namespace World

variable {w₀ w v : World} {artifact : String}

private theorem readingFor_congr (hlast : v.last artifact = w.last artifact) (hclock : v.clock = w.clock) :
    v.readingFor artifact = w.readingFor artifact := by
  unfold readingFor
  rw [show (v.noted.find? (·.1 = artifact)).map (·.2)
    = (w.noted.find? (·.1 = artifact)).map (·.2) from hlast, hclock]

theorem Becomes.readingFor_stampable (h : w₀.Becomes w) (artifact : String) :
    (w.readingFor artifact).Stampable :=
  Site.readingFor_stampable h.settled.stamped
    (Civil.ofSeconds_stampable h.settled.now.1 h.settled.now.2) artifact

theorem Becomes.noting (h : w₀.Becomes w) (artifact : String) : w₀.Becomes (w.noting artifact) := by
  have hstamped : (w.noting artifact).Stamped := by
    intro e he
    rcases List.mem_cons.mp he with rfl | he
    · exact h.readingFor_stampable artifact
    · exact h.settled.stamped e (List.mem_filter.mp he).1
  exact ⟨⟨h.settled.regular.of_alike (w.noting_alike artifact), hstamped, h.settled.now,
    h.settled.programs⟩, h.here, h.clock, h.programs, h.draw, h.skeleton⟩

end World

namespace Store

variable {σ : Scope} {s : Store} {artifact name : String}

theorem within_nextReading (ha : σ.artifacts artifact) :
    (nextReading artifact).run.Within σ := by
  have hrun (u : World) : (nextReading artifact).run.run u
      = (.ok (u.readingFor artifact), u.noting artifact) := by
    obtain ⟨hresult, hworld, -⟩ := (does_nextReading u artifact).ends
    exact Prod.ext hresult hworld
  intro w v h
  have hreading : v.readingFor artifact = w.readingFor artifact :=
    World.readingFor_congr (h.last artifact ha) (h.right.clock.trans h.left.clock.symm)
  rw [hrun, hrun, hreading]
  refine ⟨rfl, ⟨h.left.noting artifact, h.right.noting artifact, h.entry, fun other hother => ?_⟩,
    fun _ _ => rfl, fun other hother => ?_⟩
  · rw [World.last_noting, World.last_noting, hreading, h.last other hother]
  · rw [World.last_noting, if_neg]
    rintro rfl
    exact hother ha

/-- Making a backup is within a scope that grants every backup that may be made of the artifact. -/
theorem within_create (ha : σ.artifacts artifact)
    (hbackup : ∀ reading k, reading.Stampable → k < 100 →
      σ.Grants (s.pathOf (Name.writeBackup artifact reading k))) (content : Bytes) :
    (s.create artifact content).run.Within σ := by
  unfold create
  split
  · refine Within.andThen (within_nextReading ha) fun w reading hw hnext => ?_
    rw [(does_nextReading w artifact).ends.1] at hnext
    rw [← Except.ok.inj hnext]
    exact Within.composes.createFrom fun k hk => FileTask.within_createWith
      (hbackup _ k (hw.readingFor_stampable artifact) (by simpa [lastCounter] using hk)) content
  · exact Within.composes.refuse _

/-- Reading a backup is within a scope in which its path is clear. -/
theorem within_get (hs : ".." ∉ s.folder)
    (hclear : Name.endsIn Name.backupSuffix name = true → σ.Clear (s.pathOf name)) :
    (s.get name).run.Within σ := by
  have hfind : (s.find name).run.Within σ := by
    unfold find
    dsimp only
    split
    · next hname =>
      have hends := (Bool.and_eq_true_iff.mp hname).2
      have hresolve : (Task.resolve (s.pathOf name)).run.Within σ :=
        Within.composes.resolve (.request trivial)
      refine Within.andThen hresolve fun w place hw hplace => ?_
      obtain ⟨-, -, ⟨place', hresult, hresolved⟩ | ⟨place', hresult⟩⟩ :=
        (Task.does_resolve w (s.pathOf name)).ends
      · rw [hw.settled.regular.linkless.resolve_eq, placeFrom_pathOf hs hends] at hresolved
        rw [hresult, ← Except.ok.inj hresolved] at hplace
        rw [← Except.ok.inj hplace, List.dropLast_concat, if_pos rfl]
        refine Within.composes.andThen (Within.composes.ofFile
          (FileTask.within_leads (hclear hends) _)) fun there => ?_
        split
        · exact Within.composes.pure _
        · exact Within.composes.refuse _
      · rw [hresult] at hplace
        cases hplace
    · exact Within.composes.refuse _
  refine Within.andThen hfind fun w path hw hpath => ?_
  obtain ⟨-, hends, rfl⟩ := (does_find hw.settled.regular hs name).ends.2.2 path hpath
  exact Within.composes.ofFileOr (hclear hends).read

end Store

/-! ### Server files -/

namespace Site

variable {σ : Scope} {s : Site} {file source target : String}

/-- The scope grants all that is touched by work on a server file. -/
structure Covers (s : Site) (σ : Scope) (file : String) : Prop where
  stands : σ.start.Stands s.servers
  artifact : σ.artifacts file
  path : σ.Grants (s.servers.child file)
  temp : ∀ n, σ.Grants ((σ.start.tempFolder s.servers).child (World.tempName file n))
  backup : ∀ reading k, reading.Stampable → k < 100 →
    σ.Grants (s.store.pathOf (Name.writeBackup file reading k))

namespace Covers

variable (h : s.Covers σ file)
include h

theorem replace (bytes : Bytes) :
    (FileTask.replace (s.servers.child file) bytes).run.Within σ := by
  refine FileTask.within_replace ?_ h.path ?_ bytes
  · rw [Path.parent_child]
    exact h.stands
  · rw [Path.parent_child, Path.name_child]
    exact h.temp

theorem create (content : Bytes) :
    (s.store.create (s.servers.child file).name content).run.Within σ := by
  rw [Path.name_child]
  exact Store.within_create h.artifact h.backup content

theorem save (content : String) :
    ((s.serverSave (s.servers.child file) content).run s.store s.controller).run.Within σ :=
  Within.locking.holding (fun _ _ => .request trivial)
    (Within.composes.saveSteps (fun _ => .request trivial) h.path.unlink h.replace h.path.clear.read
      h.create)

theorem writeNew (content : RawText) :
    (Site.writeNew (s.servers.child file) content).run.Within σ := by
  cases content with
  | whole text => exact FileTask.within_createWith h.path _
  | broken text => exact .request h.path

theorem createServer {name : Option String} (content : Option RawText)
    (hname : s.serverPath name = .ok (s.servers.child file)) :
    (s.createServer name content).run.Within σ := by
  simp only [Site.createServer, serverPathTask, hname, pure_bind]
  refine Within.locking.holding (fun _ _ => .request trivial) ?_
  refine Within.composes.andThen (Within.composes.lift (h.writeNew _)) fun r => ?_
  cases r with
  | ok _ =>
    cases newContent content with
    | whole text => exact Within.composes.pure _
    | broken text => exact Within.composes.done _
  | error f =>
    dsimp only
    split
    · exact Within.composes.refuse _
    · exact Within.composes.refuse _

theorem deleteServer {name : Option String}
    (hname : s.serverPath name = .ok (s.servers.child file)) :
    (s.deleteServer name).run.Within σ := by
  have hk : Kind.Composes fun _ p => p.Within σ := Within.composes
  simp only [Site.deleteServer, serverPathTask, hname, pure_bind]
  refine Within.locking.holding (fun _ _ => .request trivial) ?_
  refine hk.andThen (hk.ofFile (FileTask.within_leads h.path.clear _)) fun there => ?_
  cases there with
  | false => exact hk.done _
  | true =>
    refine hk.andThen (hk.backUpIfPossible h.path.clear.read h.create) fun backup => ?_
    refine hk.andThen (hk.lift h.path.unlink) fun r => ?_
    cases r with
    | ok _ => exact hk.pure _
    | error f =>
      dsimp only
      split
      · exact hk.refuse _
      · exact hk.refuse _

theorem renameServer {old new : Option String} (h' : s.Covers σ target)
    (hold : s.serverPath old = .ok (s.servers.child file))
    (hnew : s.serverPath new = .ok (s.servers.child target)) :
    (s.renameServer old new).run.Within σ := by
  have hk : Kind.Composes fun _ p => p.Within σ := Within.composes
  unfold Site.renameServer
  split
  · exact hk.done _
  simp only [serverPathTask, hold, hnew, pure_bind]
  refine Within.locking.holding (fun _ _ => .request trivial) ?_
  refine hk.andThen (hk.ofFile (FileTask.within_leads h.path.clear _)) fun there => ?_
  cases there with
  | false => exact hk.done _
  | true =>
    refine hk.andThen (hk.ofFile (FileTask.within_leads h'.path.clear _)) fun taken => ?_
    cases taken with
    | true => exact hk.done _
    | false => exact hk.andThen (hk.ofFileOr (.request ⟨h.path, h'.path⟩)) fun _ => hk.pure _

end Covers

/-- Restoring a backup is within a scope that covers the file that it goes back to. -/
theorem within_restoreBackup {name : String} (hs : ".." ∉ s.store.folder)
    (hclear : Name.endsIn Name.backupSuffix name = true → σ.Clear (s.store.pathOf name))
    (htarget : ∀ p, Name.Safe name → s.restoreTarget name = .ok p →
      ∃ file, p = s.servers.child file ∧ s.Covers σ file) :
    (s.restoreBackup name).run.Within σ := by
  have hk : Kind.Composes fun _ p => p.Within σ := Within.composes
  refine Within.andThen (Store.within_get hs hclear) fun w content hw hget => ?_
  obtain ⟨hsafe, -, -⟩ := (Store.does_get hw.settled.regular hs name).ends.2.2 content hget
  rcases hp : s.restoreTarget name with refusal | p
  · exact hk.refuse _
  obtain ⟨file, rfl, h⟩ := htarget p hsafe hp
  refine Within.locking.holding (fun _ _ => .request trivial) ?_
  refine hk.andThen (hk.safetyBackup h.path.clear.read h.create h.path.clear.look) fun backup => ?_
  refine hk.andThen (hk.ofFileOr (h.replace content)) fun _ => ?_
  exact hk.andThen (.request trivial) fun _ => hk.pure _

end Site
end ConfigSteward
