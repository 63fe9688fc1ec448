import ConfigSteward.Proofs.Site.Restoring
import ConfigSteward.Proofs.Site.ServerFiles

/-!
# What one call can change

`Effect` lists all that a call can do to the tree together with what it answers: nothing that is
there is touched, or a backup is taken away, or one file changes. A file that changes was backed up
under the name that the answer reports, unless there was nothing to back up, the file moved to a new
name or the answer says that no backup was made.
-/
namespace ConfigSteward

open Plan

namespace Site

variable {s : Site} {w v : World} {c : Call}

/-- The call returned an answer that reports a backup. -/
def Reports (r : Except Failure Answer) (name : String) : Prop :=
  ∃ answer, r = .ok answer ∧ answer.reported = some name

/-- What a call did. -/
inductive Effect (s : Site) (w : World) (c : Call) (r : Except Failure Answer) (v : World) :
    Prop where
  | keeps (alters : w.Alters v w.Vacant) (unreported : ∀ name, ¬ Reports r name)
  | removes {name : String} (call : c = .deleteBackup name)
      (alters : w.Alters v fun q => s.store.Owns q ∧ q = s.store.folder ++ [name])
      (unreported : ∀ name, ¬ Reports r name)
  | backs {p : Path} {name : String} {place : Place} (target : s.Target p)
      (alters : w.Alters v fun q => w.Vacant q ∨ q = p.placeFrom w.here)
      (slot : s.store.Slot w p.name name place)
      (holds : ∀ bytes, w.read p = .ok bytes → v.read (s.store.pathOf name) = .ok bytes)
      (reports : Reports r name)
  | fills {p : Path} (target : s.Target p)
      (alters : w.Alters v fun q => w.Vacant q ∨ q = p.placeFrom w.here)
      (missing : ∀ bytes, w.read p ≠ .ok bytes) (unreported : ∀ name, ¬ Reports r name)
  | moves {old new : String} (source : s.Target (s.servers.child old))
      (alters : w.Alters v fun q => w.Vacant q ∨ q = (s.servers.child old).placeFrom w.here)
      (moved : ∀ bytes, w.read (s.servers.child old) = .ok bytes →
        v.read (s.servers.child new) = .ok bytes)
      (answered : r = .ok (.renamed old new))
  | drops {name : Option String} {p : Path} (call : c = .deleteServer name)
      (found : s.serverPath name = .ok p)
      (alters : w.Alters v fun q => w.Vacant q ∨ q = p.placeFrom w.here)
      (answered : r = .ok (.deleted none))

section
variable {α : Type} {f : α → Answer}

private theorem not_reports_error (failure : Failure) (name : String) :
    ¬ Reports (.error failure) name := by
  rintro ⟨answer, ⟨⟩, -⟩

theorem not_reports_ok {answer : Answer} (h : answer.reported = none) (name : String) :
    ¬ Reports (.ok answer) name := by
  rintro ⟨answer', hanswer, hreported⟩
  cases hanswer
  rw [h] at hreported
  cases hreported

private theorem not_reports_map (hf : ∀ a, (f a).reported = none) (r : Except Failure α) (name : String) :
    ¬ Reports (r.map f) name := by
  cases r with
  | ok a => exact not_reports_ok (hf a) name
  | error failure => exact not_reports_error failure name

private theorem effect_of_still {task : Task α} (hcall : s.call c = task >>= fun a => pure (f a))
    (hstill : (s.call c).run.Still) (hf : ∀ a, (f a).reported = none) :
    (s.call c).run.Does (fun _ => True) w fun r v _ => s.Effect w c r v ∧ w.Notes v := by
  have hdoes := hcall ▸ does_answer (f := f) (Q := fun _ _ _ => True)
    (⟨fun _ _ => trivial, trivial⟩ : task.run.Does (fun _ => True) w _)
  obtain ⟨r, hr, -⟩ := hdoes.ends
  refine ⟨fun _ _ => trivial, ?_⟩
  rw [hstill w, hr]
  exact ⟨.keeps (.of_alike (.refl w)) (not_reports_map hf r), .inl rfl⟩

theorem Balks.effect {r : Except Failure α} (h : Balks w r v) :
    s.Effect w c (r.map f) v ∧ w.Notes v := by
  obtain ⟨⟨failure, rfl⟩, halters, hnotes⟩ := h
  exact ⟨.keeps halters (not_reports_error failure), hnotes⟩

end

private theorem effect_of_exchange {r : Except Failure Answer} {p : Path} {backup : Option String}
    (hs : s.Sited w) (htarget : s.Target p) (h : s.Exchanges w p backup v)
    (hr : ∃ answer, r = .ok answer ∧ answer.reported = backup)
    (hnone : backup = none → (∃ name, c = .deleteServer name ∧ s.serverPath name = .ok p ∧
        r = .ok (.deleted none)) ∨ ∀ bytes, w.read p ≠ .ok bytes) :
    s.Effect w c r v ∧ w.Notes v := by
  refine ⟨?_, h.notes⟩
  obtain ⟨answer, rfl, hreported⟩ := hr
  cases backup with
  | none =>
    rcases hnone rfl with ⟨name, hcall, hp, hdropped⟩ | hmissing
    · exact .drops hcall hp (h.alters hs) hdropped
    · exact .fills htarget (h.alters hs) hmissing (not_reports_ok hreported)
  | some name =>
    obtain ⟨place, hslot, hholds⟩ := h.holds hs htarget.managed
    exact .backs htarget (h.alters hs) hslot hholds ⟨answer, rfl, hreported⟩

section
variable (hs : s.Sited w) (hanswers : w.Answers) (hconfig : Name.Safe s.config.name)
include hs hanswers hconfig

private theorem effect_of_save (save : Save) (h : c.save? s = some save) :
    (s.call c).run.Does (fun _ => True) w fun r v _ => s.Effect w c r v ∧ w.Notes v := by
  obtain ⟨prior, name, place, hdoes⟩ := does_save h hs.regular hanswers.quiet
  have htarget : s.Target save.path := by
    rcases (Call.save?_spec h).2 with hpath | ⟨name, hp⟩
    · rw [hpath]
      exact .config hconfig
    · exact target_of_serverPath hp
  have hplace := hs.not_owned htarget.managed
  refine hdoes.mono (fun _ _ => trivial) ?_
  rintro r v es ⟨r', rfl, hends⟩
  refine ⟨?_, hends.notes⟩
  rcases hends.backs_up hs.regular hs.resolved hplace with
    ⟨halike, hnone⟩ | ⟨o, rfl, hbackup, backs, hholds⟩
  · refine .keeps (.of_alike halike) ?_
    cases r' with
    | ok o => exact not_reports_ok (hnone o rfl)
    | error failure => exact not_reports_error failure
  · refine .backs htarget ?_ ((Call.save?_spec h).1 ▸ backs.slot) (fun bytes hread => ?_)
      ⟨_, rfl, hbackup⟩
    · refine (hends.settles hs.regular hs.resolved).1.mono fun q hq => ?_
      exact hq.symm.imp_left fun hfree => hfree.2
    · rw [hholds, backs.prior.eq_some hread]
      rfl

private theorem effect_of_saves (hc : c.Saves) :
    (s.call c).run.Does (fun _ => True) w fun r v _ => s.Effect w c r v ∧ w.Notes v := by
  obtain ⟨save, hsave⟩ | ⟨failure, hfailure⟩ := s.save_or_failure hc
  · exact effect_of_save hs hanswers hconfig save hsave
  · rw [hfailure]
    exact does_throw.mpr ⟨trivial, .keeps (.of_alike (.refl w)) (not_reports_error _), .inl rfl⟩

/-- Every call has one of the effects. -/
theorem does_call (c : Call) :
    (s.call c).run.Does (fun _ => True) w fun r v _ => s.Effect w c r v ∧ w.Notes v := by
  cases c with
  | readConfig => exact effect_of_still (f := .config) rfl (s.still_call trivial) fun _ => rfl
  | listServers => exact effect_of_still (f := .servers) rfl (s.still_call trivial) fun _ => rfl
  | readServer name => exact effect_of_still (f := .server) rfl (s.still_call trivial) fun _ => rfl
  | listBackups artifact =>
    exact effect_of_still (f := .backups) rfl (s.still_call trivial) fun _ => rfl
  | readBackup name => exact effect_of_still (f := .content) rfl (s.still_call trivial) fun _ => rfl
  | saveConfig | saveServer => exact effect_of_saves hs hanswers hconfig trivial
  | testConfig =>
    refine (does_answer (f := .tested) (Controller.does_run hanswers.quiet
      (s.controller.validateArgs (some s.config.text)))).mono (fun _ _ => trivial) ?_
    rintro r v es ⟨r', rfl, -, rfl, -⟩
    exact ⟨.keeps (.of_alike ⟨rfl, rfl⟩) (not_reports_map (fun _ => rfl) r'), .inl rfl⟩
  | createServer name content =>
    refine (does_answer (f := .created) (s.does_createServer w name content)).mono
      (fun _ _ => trivial) ?_
    rintro r v es ⟨r', rfl, hnoted, halters⟩
    exact ⟨.keeps halters (not_reports_map (fun _ => rfl) r'), .inl hnoted⟩
  | renameServer old new =>
    refine (does_answer (f := fun names => .renamed names.1 names.2)
      (does_renameServer hs.regular old new)).mono (fun _ _ => trivial) ?_
    rintro r v es ⟨r', rfl, rfl | ⟨p, q, hp, hq, hnoted, halters, rfl, hmoved⟩⟩
    · exact ⟨.keeps (.of_alike (.refl v)) (not_reports_map (fun _ => rfl) r'), .inl rfl⟩
    · obtain ⟨old, rfl⟩ := child_of_serverPath hp
      obtain ⟨new, rfl⟩ := child_of_serverPath hq
      refine ⟨.moves (target_of_serverPath hp) halters hmoved ?_, .inl hnoted⟩
      simp only [Path.name_child]
      rfl
  | deleteServer name =>
    refine (does_answer (f := .deleted) (does_deleteServer hs name)).mono (fun _ _ => trivial) ?_
    rintro r v es ⟨r', rfl, hbalks | ⟨p, backup, hp, rfl, hexchanges⟩⟩
    · exact hbalks.effect
    · exact effect_of_exchange hs (target_of_serverPath hp) hexchanges ⟨_, rfl, rfl⟩
        fun hnone => .inl ⟨name, rfl, hp, by rw [hnone]; rfl⟩
  | createBackup =>
    refine (does_answer (f := .backup) (s.does_createBackup w)).mono (fun _ _ => trivial) ?_
    rintro r v es ⟨r', rfl, hbacks⟩
    refine ⟨?_, hbacks.notes⟩
    cases r' with
    | error failure =>
      exact .keeps ((hbacks.alters hs).mono fun _ hq => hq.2) (not_reports_error failure)
    | ok name =>
      obtain ⟨place, hslot, hholds⟩ := hbacks.holds
      exact .backs (.config hconfig) ((hbacks.alters hs).mono fun _ hq => .inl hq.2) hslot hholds
        ⟨_, rfl, rfl⟩
  | deleteBackup name =>
    refine (does_answer (f := fun _ => .removed)
      (Store.does_delete hs.regular hs.resolved name)).mono (fun _ _ => trivial) ?_
    rintro r v es ⟨r', rfl, hnoted, halters⟩
    exact ⟨.removes rfl halters (not_reports_map (fun _ => rfl) r'), .inl hnoted⟩
  | restoreBackup name =>
    refine (does_answer (f := .restored) (does_restoreBackup hs hanswers name)).mono
      (fun _ _ => trivial) ?_
    rintro r v es ⟨r', rfl, hbalks | ⟨restored, rfl, hrestores⟩⟩
    · exact hbalks.effect
    · exact effect_of_exchange hs
        (target_of_restoreTarget hconfig hrestores.found.1 hrestores.target) hrestores.exchanges
        ⟨_, rfl, rfl⟩ fun hnone => .inr (hrestores.unbacked hnone)

end

end Site
end ConfigSteward
