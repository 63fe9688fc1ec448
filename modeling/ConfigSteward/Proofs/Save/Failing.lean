import ConfigSteward.Proofs.Backup.Oversized
import ConfigSteward.Proofs.Save.Braving
import ConfigSteward.Proofs.World.Noon

/-!
# Failed saves

A save that fails before the new content has passed its check leaves the file as it was and asks for
no reload. All that is new is the backup, if the outcome tells of one. Where the backup itself cannot
be filled, what it got of its content stays in the store, although the outcome tells of no backup.
-/
namespace ConfigSteward.Save

open Plan

variable {hazard : Hazard} {s : Save} {store : Store} {c : Controller} {w v : World} {o : Outcome}
  {live place goal : Place} {mode : Nat} {prior : Option Bytes} {name : String} {es : List Execution}

/-- The prior content of a place, empty where there is no file. -/
def heldAt (t : Tree) (place : Place) : Bytes :=
  match t.get? place with
  | some (.file bytes _ _) => bytes
  | _ => []

/-- A new backup with the content that a place held, in a file of its own. -/
structure NewBackup (store : Store) (w v : World) (live : Place) (name : String) (place : Place) :
    Prop where
  lands : w.Lands (store.pathOf name) place
  fresh : w.tree.get? place = none
  other : place ≠ live
  holds : v.tree.get? place = some (.file (heldAt w.tree live) World.plainMode .lately)

/-- What a failed save leaves: the file with its bytes and its mode, and at most one new backup. -/
structure Undone (store : Store) (w : World) (live : Place) (o : Outcome) (v : World) : Prop where
  absent : w.tree.get? live = none → v.tree.get? live = none
  present : ∀ bytes mode changed, w.tree.get? live = some (.file bytes mode changed) →
    ∃ changed', v.tree.get? live = some (.file bytes mode changed')
  unbacked : o.backupCreated = false → ∀ q, q ≠ live → v.tree.get? q = w.tree.get? q
  backed : o.backupCreated = true → ∃ name place, o.backup = some name ∧
    NewBackup store w v live name place ∧
    ∀ q, q ≠ live → q ≠ place → v.tree.get? q = w.tree.get? q

theorem Prior.of_lands (h : Prior w s.path prior) (hlands : w.Lands s.path live) :
    (w.tree.get? live = none ∧ prior = none) ∨ ∃ bytes mode changed,
      w.tree.get? live = some (.file bytes mode changed) ∧ prior = some bytes := by
  rcases Tree.skeleton_eq_none_iff.mp hlands.leaf with hnone | ⟨bytes, mode, changed, hfile⟩
  · cases prior with
    | none => exact .inl ⟨hnone, rfl⟩
    | some bytes =>
      rw [Prior, hlands.read_vacant hnone] at h
      cases h
  · cases prior with
    | none =>
      obtain ⟨f, hread, -⟩ := h
      rw [hlands.read_file hfile] at hread
      cases hread
    | some bytes' =>
      rw [Prior, hlands.read_file hfile] at h
      cases h
      exact .inr ⟨bytes, mode, changed, hfile, rfl⟩

theorem Prior.heldAt_eq (h : Prior w s.path prior) (hlands : w.Lands s.path live) :
    prior.getD [] = heldAt w.tree live := by
  rcases h.of_lands hlands with ⟨hnone, rfl⟩ | ⟨bytes, mode, changed, hfile, rfl⟩
  · rw [heldAt, hnone]
    rfl
  · rw [heldAt, hfile]
    rfl

theorem Undone.of_alike (hv : w.Alike v) (ho : o.backupCreated = false) :
    Undone store w live o v := by
  refine ⟨fun h => ?_, fun bytes mode changed h => ⟨changed, ?_⟩, fun _ q _ => ?_, fun h => ?_⟩
  · rw [hv.1, h]
  · rw [hv.1, h]
  · rw [hv.1]
  · rw [ho] at h
    cases h

/-- With the file as it was, the backup is all that is new. -/
theorem Backs.undone (h : s.Backs store w prior name place) (hw : w.Sound)
    (hlands : w.Lands s.path live) (houtside : store.Outside w live)
    (hset : (s.stored w prior place).tree.Sets live (v.tree.get? live) v.tree)
    (habsent : w.tree.get? live = none → v.tree.get? live = none)
    (hpresent : ∀ bytes mode changed, w.tree.get? live = some (.file bytes mode changed) →
      ∃ changed', v.tree.get? live = some (.file bytes mode changed'))
    (hcreated : o.backupCreated = true) (hname : o.backup = some name) :
    Undone store w live o v := by
  have hne : live ≠ place := h.slot.ne_outside hw houtside
  refine ⟨habsent, hpresent, fun hnot => ?_, fun _ => ⟨name, place, hname, ?_, fun q hq hq' => ?_⟩⟩
  · rw [hcreated] at hnot
    cases hnot
  · refine ⟨h.slot.lands, h.slot.vacant, Ne.symm hne, ?_⟩
    rw [hset.other (Ne.symm hne), ← h.prior.heldAt_eq hlands]
    exact h.slot.lands.get_put _
  · rw [hset.other hq, h.other hq']

theorem checkArgs_ne_reloadArgs (s : Save) (c : Controller) : s.checkArgs c ≠ c.reloadArgs := by
  simp [checkArgs, Controller.validateArgs, Controller.reloadArgs]

private theorem not_failsEarly_afterReload (s : Save) (name : String) (result result' : CommandResult) :
    ¬ FailsEarly ((s.checked name result).afterReload result') := by
  rcases hgood : result'.exitOk <;> rcases hlate : result'.timedOut <;>
    simp [FailsEarly, Outcome.afterReload, hgood, hlate]

theorem Backs.lands (backs : s.Backs store w prior name place) (hlands : w.Lands s.path live) :
    (s.stored w prior place).Lands s.path live :=
  hlands.of_skeleton backs.skeleton rfl

section
variable (hw : w.Sound) (hlands : w.Lands s.path live) (houtside : store.Outside w live)
include hw hlands houtside

/-- The backup was made and nothing else was done. -/
theorem Backs.undone_stored (backs : s.Backs store w prior name place)
    (hcreated : o.backupCreated = true) (hname : o.backup = some name) :
    Undone store w live o (s.stored w prior place) := by
  have hlive := backs.other (backs.slot.ne_outside hw houtside)
  refine backs.undone hw hlands houtside (fun q => ?_) (fun h => ?_)
    (fun bytes mode changed h => ⟨changed, ?_⟩) hcreated hname
  · split
    · next hq => rw [hq]
    · rfl
  · rw [hlive, h]
  · rw [hlive, h]

/-- A save that fails before its check has passed leaves the file as it was: absent, or with the same
bytes and mode. No reload was asked for, and no place differs but that of the one new backup. -/
theorem Ends.undone (hmode : ∀ bytes mode changed,
      w.tree.get? live = some (.file bytes mode changed) → mode < 0o1000)
    (hends : s.Ends store c w prior name place (.ok o) v es) (hfails : FailsEarly o) :
    Undone store w live o v ∧ ∀ e ∈ es, e.args ≠ c.reloadArgs := by
  cases hends with
  | refused message hv =>
    exact ⟨.of_alike (World.alike_of_noting hv) rfl, by simp⟩
  | unwritten message backs dug =>
    obtain rfl := dug.of_lands (backs.sound hw) (backs.lands hlands)
    exact ⟨backs.undone_stored hw hlands houtside rfl rfl, by simp⟩
  | @rejected u goal mode result writes hresult bad =>
    refine ⟨?_, by simp [checkArgs_ne_reloadArgs]⟩
    have hlive := writes.backs.other (writes.backs.slot.ne_outside hw houtside)
    obtain ⟨rfl, hgoal, hover⟩ :=
      writes.replaces.of_lands (writes.backs.sound hw) (writes.backs.lands hlands)
    subst goal
    have hset := Tree.putBack_sets (t := (s.stored w prior place).tree) hlands.ne_nil mode prior
    have hself := hset.self
    refine writes.backs.undone hw hlands houtside ?_ (fun h => ?_)
      (fun bytes mode changed h => ⟨.lately, ?_⟩) rfl rfl
    · rwa [← hself] at hset
    · rcases writes.backs.prior.of_lands hlands with ⟨-, rfl⟩ | ⟨_, _, _, hfile, -⟩
      · exact hself
      · rw [h] at hfile
        cases hfile
    · rcases writes.backs.prior.of_lands hlands with ⟨hnone, -⟩ | ⟨_, _, _, hfile, rfl⟩
      · rw [h] at hnone
        cases hnone
      · rw [h] at hfile
        cases hfile
        rw [Tree.modeOver_of_file (hlive.trans h),
          Nat.mod_eq_of_lt (hmode bytes _ changed h)] at hover
        subst hover
        exact hself
  | accepted writes hresult good still =>
    simp [FailsEarly] at hfails
  | reloaded writes hresult good hresult' =>
    exact absurd hfails (not_failsEarly_afterReload s name _ _)

/-- A backup of what a place held was begun, in a file of its own that has the first part of it, and
nothing else was done. -/
structure BackupBegun (store : Store) (w v : World) (live : Place) (name : String) (place : Place)
    (k : Nat) : Prop where
  lands : w.Lands (store.pathOf name) place
  fresh : w.tree.get? place = none
  other : place ≠ live
  holds : v.tree.get? place
    = some (.file ((heldAt w.tree live).take k) World.plainMode .lately)
  rest : ∀ q, q ≠ place → v.tree.get? q = w.tree.get? q

private theorem backupBegun (hprior : Prior w s.path prior) (safe : Name.isSafe s.artifact = true)
    (begins : store.Begins (w.noting s.artifact) s.artifact (w.readingFor s.artifact)
      (prior.getD []) 0 (Store.lastCounter + 1) v) :
    ∃ name place k, BackupBegun store w v live name place k := by
  obtain ⟨name, place, k, hslot, rfl⟩ := begins.slot safe
  refine ⟨name, place, k, hslot.lands, hslot.vacant, Ne.symm (hslot.ne_outside hw houtside), ?_,
    fun q hq => (Tree.put_sets hslot.lands.ne_nil _).other hq⟩
  rw [← hprior.heldAt_eq hlands]
  exact hslot.lands.get_put _

end

/-- Whatever goes wrong before the check, a save that fails before its check has passed asks for no
reload and leaves the file as it was: absent, or with the same bytes and mode. No place differs but
that of the one new backup, if the outcome tells of it, with two exceptions. A backup that could not
be filled may stay in the store with the first part of its content, and where it could not be taken
away, the temporary file of the new content stays. -/
theorem failed_run_undone_or_begun (hw : w.Sound) (hquiet : w.Quiet) (hlands : w.Lands s.path live)
    (hmode : ∀ bytes mode changed, w.tree.get? live = some (.file bytes mode changed) →
      mode < 0o1000)
    (houtside : store.Outside w live) (hblatant : hazard.Blatant)
    (hceases : hazard.CeasesAfter w.ran.length) :
    (s.run store c).run.Braves hazard w fun r v es => ∀ o, r = .ok o → FailsEarly o →
      (∀ e ∈ es, e.args ≠ c.reloadArgs) ∧
      (Undone store w live o v ∨
        o.error = some .backupFailed ∧ o.backupCreated = false ∧
          (∃ name place k, BackupBegun store w v live name place k) ∨
        o.error = some .writeFailed ∧ ¬ hazard.Tidy ∧ ∃ u, Undone store w live o u ∧
          ∃ r n content mode, u.tree.get? (r ++ [World.tempName s.path.name n]) = none ∧
            v = FileTask.tempIn u s.path r n content mode) := by
  refine (braves_run hw (.inl ⟨live, hlands⟩) hquiet hblatant hceases store c).mono ?_
  rintro r v es hmeets o rfl hfails
  cases hmeets with
  | well ends =>
    obtain ⟨hundone, hnone⟩ := ends.undone hw hlands houtside hmode hfails
    exact ⟨hnone, .inl hundone⟩
  | begun message hprior safe begins =>
    exact ⟨by simp, .inr (.inl ⟨rfl, rfl, backupBegun hw hlands houtside hprior safe begins⟩)⟩
  | littered message backs untidy littered =>
    obtain ⟨u, hdug, hv⟩ := littered
    obtain rfl := hdug.of_lands (backs.sound hw) (backs.lands hlands)
    refine ⟨by simp, ?_⟩
    rcases hv with rfl | htemp
    · exact .inl (backs.undone_stored hw hlands houtside rfl rfl)
    · exact .inr (.inr ⟨rfl, untidy, _, backs.undone_stored hw hlands houtside rfl rfl, htemp⟩)

/-- A file, a folder for backups and a checker that turns everything down. -/
def strict : World :=
  .atNoon ⟨[(["a"], .file [97] 0o640 (.known 0)), (["b"], .folder)]⟩ (.ok .bad)

/-- The file is in a folder of its own. -/
def strictIn : World :=
  { strict with
    tree := ⟨[(["b"], .folder), (["d"], .folder), (["d", "a"], .file [97] 0o640 (.known 0))]⟩ }

def saveIn : Save := { path := ⟨.one, ["d", "a"]⟩, content := [98], artifact := "a" }

theorem run_strictIn : ((saveIn.run ⟨["b"]⟩ {}).run.run strictIn).1
    = .ok (saveIn.rejected "a.20240501_120000.backup" .bad) := by cbv

/-- A save that is turned down changes nothing but that there is a backup. -/
theorem failed_run_undone_or_begun_strict :
    ∃ o, FailsEarly o ∧ o.backupCreated = true ∧
      Undone ⟨["b"]⟩ strictIn ["d", "a"] o ((saveIn.run ⟨["b"]⟩ {}).run.run strictIn).2 ∧
      ∀ e ∈ (saveIn.run ⟨["b"]⟩ {}).run.executions strictIn, e.args ≠ Controller.reloadArgs {} := by
  have houtside : Store.Outside ⟨["b"]⟩ strictIn ["d", "a"] := by
    intro folder hwalk
    have hfolder : strictIn.tree.walk true strictIn.here (Path.mk .one ["b"]) = .ok ["b"] := by cbv
    rw [Except.ok.inj (hwalk.symm.trans hfolder)]
    decide
  have hmode : ∀ bytes mode changed,
      strictIn.tree.get? ["d", "a"] = some (.file bytes mode changed) → mode < 0o1000 := by
    rintro bytes mode changed ⟨⟩
    decide
  have hbraves := failed_run_undone_or_begun (s := saveIn) (c := {})
    ⟨Tree.sound_of_entries (by decide), rfl⟩ (fun _ _ _ => rfl) ⟨by cbv, rfl⟩ hmode houtside
    (Hazard.blatant_upTo 0) (Hazard.ceases_upTo 0)
  have hfails : FailsEarly (saveIn.rejected "a.20240501_120000.backup" .bad) := .inr (.inr (.inl rfl))
  obtain ⟨hnone, hundone | ⟨hbackup, -⟩ | ⟨hwrite, -⟩⟩ := hbraves.run _ run_strictIn hfails
  · exact ⟨_, hfails, rfl, hundone, hnone⟩
  · cases hbackup
  · cases hwrite

/-- The file and the folder of `strict`, where the service may write files of one byte only. -/
def strictBounded : World :=
  { strict with
    tree := Tree.limitSize ⟨[(["a"], .file [97, 97] 0o640 (.known 0)), (["b"], .folder)]⟩ (some 1) }

/-- The backup that a refused save began stays, although its outcome tells of none. -/
theorem failed_run_leaves_first_part :
    let s : Save := { path := ⟨.one, ["a"]⟩, content := [98], artifact := "a" }
    ∃ o v, (s.run ⟨["b"]⟩ {}).run.runBounded strictBounded = (.ok o, v) ∧ FailsEarly o ∧
      o.backupCreated = false ∧
      strictBounded.tree.get? ["b", "a.20240501_120000.backup"] = none ∧
      v.tree.get? ["b", "a.20240501_120000.backup"]
        = some (.file [97] World.plainMode .lately) := by
  have hlimit : strictBounded.tree.sizeLimit? = some 1 := Tree.sizeLimit?_limitSize _ _
  have hname : "a.20240501_120000.backup"
      = Name.writeBackup "a" (strictBounded.readingFor "a") 0 := by cbv
  have hvacancy : strictBounded.vacancy ((Store.mk ["b"]).pathOf "a.20240501_120000.backup")
      = .ok ["b", "a.20240501_120000.backup"] := by cbv
  have hcreate : ((Store.mk ["b"]).create "a" [97, 97]).run.runBounded strictBounded
      = (.error (.refused (Store.unwritten "a.20240501_120000.backup"
          (.tooLarge ((Store.mk ["b"]).pathOf "a.20240501_120000.backup")))),
        (strictBounded.noting "a").withFile ["b", "a.20240501_120000.backup"]
          (([97, 97] : Bytes).take 1)) :=
    Store.runBounded_create (by decide) hlimit (by decide) (Nat.zero_le _) hname .empty hvacancy
  have hprior : (priorContent ⟨.one, ["a"]⟩).run.runBounded strictBounded
      = (.ok (some [97, 97]), strictBounded) := by cbv
  have hrun : (run { path := ⟨.one, ["a"]⟩, content := [98], artifact := "a" } ⟨["b"]⟩
      {}).run.runBounded strictBounded
        = (.ok { artifact := "a", error := some .backupFailed, message := (Store.unwritten
            "a.20240501_120000.backup"
            (.tooLarge ((Store.mk ["b"]).pathOf "a.20240501_120000.backup"))).message },
          (strictBounded.noting "a").withFile ["b", "a.20240501_120000.backup"] [97]) := by
    have hresolve : strictBounded.tree.resolve strictBounded.here ⟨.one, ["a"]⟩ = .ok ["a"] := by
      cbv
    rw [run, Lock.runBounded_hold hresolve, steps,
      runBounded_andThen_ok (t := Task.attemptFile _) (runBounded_lift hprior)]
    exact runBounded_andThen_ok (runBounded_lift hcreate)
  exact ⟨_, _, hrun, .inl rfl, rfl, by cbv, by cbv⟩

end ConfigSteward.Save
