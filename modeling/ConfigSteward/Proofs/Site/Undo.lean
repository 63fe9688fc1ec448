import Mathlib
import ConfigSteward.Proofs.Site.Changes
import ConfigSteward.Proofs.World.Noon

/-!
# Backups undo

No content of a file that the site looks after is lost in a run: a call that replaces or removes it
reports a backup. However the run goes on, restoring that backup puts the content back in the file
and touches no other, as long as no call takes the backup away.
-/
namespace ConfigSteward

open Plan

/-- The readings noted so far, none at first, fit a stamp. -/
def World.Stamped (w : World) : Prop := ∀ e ∈ w.noted, e.2.Stampable

namespace Site

variable {s : Site} {w v : World} {st : Step} {steps : List Step} {name : String} {p : Path}
  {place : Place} {bytes : Bytes}

/-- The clock shows a year of four digits and every program returns a result without touching a
file. -/
structure Step.Fair (st : Step) : Prop where
  year : 1000 ≤ (Civil.ofSeconds (st.clock / 1000000)).year ∧
    (Civil.ofSeconds (st.clock / 1000000)).year ≤ 9999
  answers : ∀ ran args tree, ∃ result, st.programs ran args tree = (.ok result, tree)

/-- The site stands in the world, its primary configuration has a plain name and so far the clock
has shown years of four digits. -/
structure Ready (s : Site) (w : World) : Prop where
  sited : s.Sited w
  safe : Name.Safe s.config.name
  stamped : w.Stamped

theorem Step.Fair.now (hst : st.Fair) (w : World) :
    (Civil.ofSeconds ((st.meets w).clock / 1000000)).Stampable :=
  Civil.ofSeconds_stampable hst.year.1 hst.year.2

theorem readingFor_stampable (hw : w.Stamped)
    (hnow : (Civil.ofSeconds (w.clock / 1000000)).Stampable) (artifact : String) :
    (w.readingFor artifact).Stampable := by
  unfold World.readingFor
  split
  · next last hlast =>
    obtain ⟨e, hfind, rfl⟩ := Option.map_eq_some_iff.mp hlast
    exact Civil.latest_stampable hnow (hw e (List.mem_of_find?_eq_some hfind))
  · exact hnow

private theorem stamped_of_notes (hw : w.Stamped) (hnow : (Civil.ofSeconds (w.clock / 1000000)).Stampable)
    (h : w.Notes v) : v.Stamped := by
  rcases h with hnoted | ⟨artifact, hnoted⟩
  · rwa [World.Stamped, hnoted]
  · rw [World.Stamped, hnoted]
    intro e he
    rcases List.mem_cons.mp he with rfl | he
    · exact readingFor_stampable hw hnow artifact
    · exact hw e (List.mem_filter.mp he).1

namespace Ready

variable (h : s.Ready w) (hst : st.Fair)
include h

theorem meets (st : Step) : s.Ready (st.meets w) :=
  ⟨h.sited.of_alike (st.meets_alike w), h.safe, h.stamped⟩

include hst

theorem ends : s.Effect (st.meets w) st.call (s.calls.reply w st) (s.calls.advance w st) ∧
    (st.meets w).Notes (s.calls.advance w st) :=
  (does_call (h.meets st).sited hst.answers h.safe st.call).ends

theorem advance : s.Ready (s.calls.advance w st) :=
  ⟨h.sited.advance (World.Answers.quiet hst.answers), h.safe,
    stamped_of_notes (h.meets st).stamped (hst.now w) (h.ends hst).2⟩

end Ready

theorem Ready.after (h : s.Ready w) (hsteps : ∀ st ∈ steps, st.Fair) :
    s.Ready (s.calls.after w steps) :=
  Calls.after_invariant h fun _ hv st hst => hv.advance (hsteps st hst)

/-! ### Backups that can be restored -/

/-- The backup holds the content and goes back to the file. -/
structure Undoes (s : Site) (w : World) (name : String) (p : Path) (bytes : Bytes) : Prop where
  ending : Name.endsIn Name.backupSuffix name = true
  target : s.restoreTarget name = .ok p
  holds : w.read (s.store.pathOf name) = .ok bytes

private theorem undoes_of_slot (htarget : s.Target p) (hslot : s.store.Slot w p.name name place)
    (hreading : (w.readingFor p.name).Stampable)
    (hholds : v.read (s.store.pathOf name) = .ok bytes) : s.Undoes v name p bytes := by
  refine ⟨hslot.endsIn, ?_, hholds⟩
  obtain ⟨counter, hcounter, rfl⟩ := hslot.named
  have hlast : counter < 100 := Nat.lt_succ_of_le hcounter
  exact htarget.restoreTarget_eq (Name.artifactOf_writeBackup htarget.safe hreading hlast)

/-- A backup's place is touched by a call that takes it away, and by no other. -/
theorem Effect.alters {c : Call} {r : Except Failure Answer} (h : s.Effect w c r v)
    (hs : s.Sited w) : w.Alters v fun q => w.Vacant q ∨ ¬ s.store.Owns q ∨
      ∃ name, c = .deleteBackup name ∧ q = s.store.folder ++ [name] := by
  have hfile {p : Path} (htarget : s.Target p)
      (halters : w.Alters v fun q => w.Vacant q ∨ q = p.placeFrom w.here) :
      w.Alters v fun q => w.Vacant q ∨ ¬ s.store.Owns q ∨
        ∃ name, c = .deleteBackup name ∧ q = s.store.folder ++ [name] := by
    refine halters.mono fun q hq => hq.imp_right fun heq => .inl ?_
    rw [heq]
    exact hs.not_owned htarget.managed
  cases h with
  | keeps halters => exact halters.mono fun _ hq => .inl hq
  | removes hcall halters => exact halters.mono fun _ hq => .inr (.inr ⟨_, hcall, hq.2⟩)
  | backs htarget halters => exact hfile htarget halters
  | fills htarget halters => exact hfile htarget halters
  | moves hsource halters => exact hfile hsource halters
  | drops _ hfound halters => exact hfile (target_of_serverPath hfound) halters

/-- A backup stays as it is unless the call takes it away. -/
theorem Undoes.advance (h : s.Undoes w name p bytes) (hw : s.Ready w) (hst : st.Fair)
    (hcall : st.call ≠ .deleteBackup name) : s.Undoes (s.calls.advance w st) name p bytes := by
  have hmeets : (st.meets w).read (s.store.pathOf name) = .ok bytes := h.holds
  have hregular := (hw.meets st).sited.regular
  refine ⟨h.ending, h.target,
    hregular.read_kept ((hw.ends hst).1.alters (hw.meets st).sited) ?_ hmeets⟩
  rintro (hvacant | howned | ⟨name', hdelete, hplace⟩)
  · exact hregular.not_vacant_of_read hmeets hvacant
  · rw [Store.placeFrom_pathOf hw.sited.resolved h.ending] at howned
    exact howned ⟨name, h.ending, rfl⟩
  · rw [Store.placeFrom_pathOf hw.sited.resolved h.ending] at hplace
    obtain rfl := List.singleton_inj.mp (List.append_inj_right' hplace rfl)
    exact hcall hdelete

theorem Undoes.after (h : s.Undoes w name p bytes) (hw : s.Ready w)
    (hsteps : ∀ st ∈ steps, st.Fair) (hcalls : ∀ st ∈ steps, st.call ≠ .deleteBackup name) :
    s.Undoes (s.calls.after w steps) name p bytes := by
  have hboth : s.Undoes (s.calls.after w steps) name p bytes ∧ s.Ready (s.calls.after w steps) :=
    Calls.after_invariant (I := fun v => s.Undoes v name p bytes ∧ s.Ready v) ⟨h, hw⟩
      fun v hv st hst => ⟨hv.1.advance hv.2 (hsteps st hst) (hcalls st hst),
        hv.2.advance (hsteps st hst)⟩
  exact hboth.1

/-- Restoring the backup, once it returns, puts the content back in the file and nothing else. -/
theorem Undoes.restored (h : s.Undoes w name p bytes) (hw : s.Ready w) (hst : st.Fair)
    (hcall : st.call = .restoreBackup name) {restored : Restored}
    (hreply : s.calls.reply w st = .ok (.restored restored)) :
    restored.path = p ∧ (s.calls.advance w st).read p = .ok bytes ∧
      ∀ q content, q.placeFrom w.here ≠ p.placeFrom w.here → w.read q = .ok content →
        (s.calls.advance w st).read q = .ok content := by
  have hmeets := (hw.meets st).sited
  obtain ⟨es, r, hr, ⟨⟨failure, rfl⟩, -, -⟩ | ⟨restored', rfl, hrestores⟩⟩ :=
    Step.ends (s := s) (by rw [hcall, call])
      (does_answer (f := .restored) (does_restoreBackup hmeets hst.answers name))
  · rw [hreply] at hr
    cases hr
  rw [hreply] at hr
  cases hr
  have hpath : restored.path = p := Except.ok.inj (hrestores.target.symm.trans h.target)
  obtain ⟨content, hread, hnew⟩ := hrestores.content
  cases hread.symm.trans h.holds
  refine ⟨hpath, hpath ▸ hnew, fun q content hne hread' => ?_⟩
  exact hmeets.regular.read_other (hrestores.exchanges.alters hmeets) (hpath ▸ hne) hread'

/-- Whatever calls follow, as long as none takes the backup away, restoring it puts the content back
in the file and touches no other, once it returns. -/
def Faithful (s : Site) (w : World) (name : String) (p : Path) (bytes : Bytes) : Prop :=
  ∀ (steps : List Step) (st : Step) (restored : Restored),
    (∀ st' ∈ steps ++ [st], st'.Fair) → (∀ st' ∈ steps, st'.call ≠ .deleteBackup name) →
    st.call = .restoreBackup name → s.calls.reply (s.calls.after w steps) st = .ok (.restored restored) →
    restored.path = p ∧ (s.calls.after w (steps ++ [st])).read p = .ok bytes ∧
      ∀ q content, q.placeFrom w.here ≠ p.placeFrom w.here →
        (s.calls.after w steps).read q = .ok content →
        (s.calls.after w (steps ++ [st])).read q = .ok content

theorem Undoes.faithful (h : s.Undoes w name p bytes) (hw : s.Ready w) :
    s.Faithful w name p bytes := by
  intro steps st restored hfair hkept hcall hreply
  have hsteps : ∀ st' ∈ steps, st'.Fair := fun st' hst' => hfair st' (by simp [hst'])
  rw [Calls.after_append, Calls.after_cons, Calls.after_nil, ← after_here s w steps]
  exact (h.after hw hsteps hkept).restored (hw.after hsteps) (hfair st (by simp)) hcall hreply

/-! ### What calls lose -/

/-- A file's content is there under its new name, or the call deleted the file and told that there is
no backup, or the store holds the content in the backup that it reports, which will bring it back. -/
inductive Recalled (s : Site) (c : Call) (r : Except Failure Answer) (v : World) (p : Path)
    (bytes : Bytes) : Prop where
  | renamed {old new : String} (answered : r = .ok (.renamed old new))
      (source : p = s.servers.child old) (moved : v.read (s.servers.child new) = .ok bytes)
  | dropped {name : Option String} (call : c = .deleteServer name)
      (found : s.serverPath name = .ok p) (answered : r = .ok (.deleted none))
  | backed {name : String} (reports : Reports r name) (undoes : s.Undoes v name p bytes)
      (faithful : s.Faithful v name p bytes)

section
variable (h : s.Ready w) (hst : st.Fair)
include h hst

/-- A backup that a call makes of a file holds its content and is faithful to it. -/
theorem faithful_of_slot (htarget : s.Target p) (hslot : s.store.Slot (st.meets w) p.name name place)
    (hholds : (s.calls.advance w st).read (s.store.pathOf name) = .ok bytes) :
    s.Undoes (s.calls.advance w st) name p bytes ∧
      s.Faithful (s.calls.advance w st) name p bytes := by
  have hreading := readingFor_stampable (h.meets st).stamped (hst.now w) p.name
  have hundoes := undoes_of_slot htarget hslot hreading hholds
  exact ⟨hundoes, hundoes.faithful (h.advance hst)⟩

/-- What a call takes from a file can be recalled. -/
theorem kept_or_recalled (hp : s.Managed p) (hgenuine : s.Genuine w.here p)
    (hread : w.read p = .ok bytes) :
    (s.calls.advance w st).read p = .ok bytes ∨
      s.Recalled st.call (s.calls.reply w st) (s.calls.advance w st) p bytes := by
  have hmeets : (st.meets w).read p = .ok bytes := hread
  have hsited := (h.meets st).sited
  have hother {q : Path} (hq : s.Target q)
      (halters : (st.meets w).Alters (s.calls.advance w st)
        fun place => (st.meets w).Vacant place ∨ place = q.placeFrom w.here) :
      p = q ∨ (s.calls.advance w st).read p = .ok bytes := by
    by_cases hplace : p.placeFrom w.here = q.placeFrom w.here
    · exact .inl (hq.eq_of_place h.safe hp hgenuine hplace)
    · exact .inr (hsited.regular.read_other halters hplace hmeets)
  cases (h.ends hst).1 with
  | keeps halters => exact .inl (hsited.regular.read_added halters hmeets)
  | removes hcall halters =>
    refine .inl (hsited.regular.read_kept halters (fun howned => ?_) hmeets)
    exact hsited.not_owned hp howned.1
  | backs htarget halters hslot hholds hreports =>
    refine (hother htarget halters).symm.imp_right ?_
    rintro rfl
    obtain ⟨hundoes, hfaithful⟩ := faithful_of_slot h hst htarget hslot (hholds bytes hmeets)
    exact .backed hreports hundoes hfaithful
  | fills htarget halters hmissing =>
    refine (hother htarget halters).symm.imp_right ?_
    rintro rfl
    exact absurd hmeets (hmissing bytes)
  | moves hsource halters hmoved hanswered =>
    refine (hother hsource halters).symm.imp_right ?_
    rintro rfl
    exact .renamed hanswered rfl (hmoved bytes hmeets)
  | drops hcall hfound halters hanswered =>
    refine (hother (target_of_serverPath hfound) halters).symm.imp_right ?_
    rintro rfl
    exact .dropped hcall hfound hanswered

/-- Every backup that is reported holds what a file held before, and goes back to it. -/
theorem reported_faithful (hreports : Reports (s.calls.reply w st) name) :
    ∃ p, s.Managed p ∧ ∀ bytes, w.read p = .ok bytes →
      s.Undoes (s.calls.advance w st) name p bytes ∧
        s.Faithful (s.calls.advance w st) name p bytes := by
  cases (h.ends hst).1 with
  | keeps _ hunreported => exact absurd hreports (hunreported name)
  | removes _ _ hunreported => exact absurd hreports (hunreported name)
  | fills _ _ _ hunreported => exact absurd hreports (hunreported name)
  | moves _ _ _ hanswered =>
    rw [hanswered] at hreports
    exact absurd hreports (not_reports_ok rfl name)
  | drops _ _ _ hanswered =>
    rw [hanswered] at hreports
    exact absurd hreports (not_reports_ok rfl name)
  | @backs p name' place htarget halters hslot hholds hreports' =>
    obtain ⟨answer, hanswer, hreported⟩ := hreports
    obtain ⟨answer', hanswer', hreported'⟩ := hreports'
    cases hanswer.symm.trans hanswer'
    cases hreported.symm.trans hreported'
    refine ⟨p, htarget.managed, fun bytes hread => ?_⟩
    exact faithful_of_slot h hst htarget hslot (hholds bytes hread)

end

/-- No content of the site's files is lost at any step of a run, and every backup that a step reports
holds what its file held before and brings it back. -/
theorem no_content_lost (h : s.Ready w) (hsteps : ∀ st' ∈ steps ++ [st], st'.Fair) :
    (∀ p bytes, s.Managed p → s.Genuine w.here p → (s.calls.after w steps).read p = .ok bytes →
      (s.calls.after w (steps ++ [st])).read p = .ok bytes ∨
        s.Recalled st.call (s.calls.reply (s.calls.after w steps) st)
          (s.calls.after w (steps ++ [st])) p bytes) ∧
    ∀ name, Reports (s.calls.reply (s.calls.after w steps) st) name →
      ∃ p, s.Managed p ∧ ∀ bytes, (s.calls.after w steps).read p = .ok bytes →
        s.Undoes (s.calls.after w (steps ++ [st])) name p bytes ∧
          s.Faithful (s.calls.after w (steps ++ [st])) name p bytes := by
  have hready : s.Ready (s.calls.after w steps) := h.after fun st' hst' => hsteps st' (by simp [hst'])
  have hst := hsteps st (by simp)
  rw [Calls.after_append, Calls.after_cons, Calls.after_nil]
  refine ⟨fun p bytes hp hgenuine hread => ?_, fun name hreports => ?_⟩
  · rw [← after_here s w steps] at hgenuine
    exact kept_or_recalled hready hst hp hgenuine hread
  · exact reported_faithful hready hst hreports

/-- A configuration, a folder for backups and programs that end well. -/
def furnished : World :=
  .atNoon ⟨[(["d"], .folder), (["d", "a"], .file [97] 0o640 (.known 0)), (["c"], .folder)]⟩ (.ok .well)

def home : Site := ⟨⟨.one, ["d", "a"]⟩, ⟨.one, ["b"]⟩, ⟨["c"]⟩, {}⟩

def homeSave : Step := ⟨World.noon, furnished.programs, .saveConfig "x"⟩

/-- What the configuration held before it was saved comes back from the backup. -/
theorem no_content_lost_home :
    home.Ready furnished ∧ homeSave.Fair ∧
      home.Faithful (home.calls.after furnished [homeSave]) "a.20240501_120000.backup" home.config
        [97] := by
  have hregular : furnished.Regular :=
    ⟨⟨Tree.sound_of_entries (by decide), rfl⟩, Tree.linkless_of_entries (by simp [furnished])⟩
  have hready : home.Ready furnished :=
    ⟨⟨hregular, by decide, by decide⟩, .of_isSafe (by decide) (by decide), nofun⟩
  have hfair : homeSave.Fair := ⟨by decide, fun _ _ _ => ⟨_, rfl⟩⟩
  have hreply : home.calls.reply furnished homeSave = .ok (.outcome
      { artifact := "a", backup := some "a.20240501_120000.backup", backupCreated := true,
        applied := true, validated := true, reloadAttempted := true, reloaded := true }) := by cbv
  have hnew : (home.calls.after furnished [homeSave]).read home.config = .ok [120] := by cbv
  refine ⟨hready, hfair, ?_⟩
  have hsteps : ∀ st ∈ [] ++ [homeSave], st.Fair := by
    rintro st hst
    rwa [List.mem_singleton.mp hst]
  rcases (no_content_lost hready hsteps).1 home.config [97] .config (fun _ => rfl) (by cbv) with
    hkept | ⟨hanswered, -, -⟩ | ⟨hcall, -, -⟩ | ⟨⟨answer, hanswer, hreported⟩, -, hfaithful⟩
  · cases hnew.symm.trans hkept
  · cases hreply.symm.trans hanswered
  · cases hcall
  · cases hreply.symm.trans hanswer
    cases hreported
    exact hfaithful

end Site
end ConfigSteward
