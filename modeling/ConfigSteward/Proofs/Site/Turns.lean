import ConfigSteward.Proofs.Save.Turn
import ConfigSteward.Proofs.Site.Changes

/-!
# The turn of a call at one file

What a call that works on one file leaves to the next one, whatever the programs answer.
-/
namespace ConfigSteward

open Plan

namespace Turn

variable {w v : World} {store : Store} {p : Path} {committed committed' : Bytes → Prop}
  {restored restored' : Prop} {reported reported' : String → Prop}

theorem congr (h : Turn store p w v committed restored reported)
    (hcommitted : ∀ bytes, committed' bytes ↔ committed bytes) (hrestored : restored' → restored)
    (hreported : ∀ name, reported' name → reported name) :
    Turn store p w v committed' restored' reported' where
  spares := h.spares
  commits bytes hbytes := h.commits bytes ((hcommitted bytes).mp hbytes)
  content bytes hbytes := (h.content bytes hbytes).imp_left (hcommitted bytes).mpr
  restores hr := h.restores (hrestored hr)
  reports name hname := h.reports name (hreported name hname)

end Turn

namespace Site

variable {s : Site} {w v : World} {p : Path} {c : Call} {r : Except Failure (Option String)}

/-- The call works on the file at a path: it saves the primary configuration or backs it up, or it
saves, creates or deletes a server file. A save whose content cannot be encoded fails before it asks
for the file. -/
def Call.WorksOn (s : Site) (p : Path) : Call → Prop
  | .saveConfig (.whole _) | .createBackup => s.config = p
  | .saveServer name (.whole _) | .createServer name _ | .deleteServer name =>
    s.serverPath name = .ok p
  | _ => False

/-- The call put these bytes in place for good: saved content that passed its check, or what came
into a new file. -/
inductive Commits : Call → Except Failure Answer → Bytes → Prop where
  | config {content : RawText} {bytes : Bytes} {o : Outcome} (encoded : content.encode = .ok bytes)
      (validated : o.validated = true) : Commits (.saveConfig content) (.ok (.outcome o)) bytes
  | server {name : Option String} {content : RawText} {bytes : Bytes} {o : Outcome}
      (encoded : content.encode = .ok bytes) (validated : o.validated = true) :
      Commits (.saveServer name content) (.ok (.outcome o)) bytes
  | created {name : Option String} {content : Option RawText} {p : Path} {r : Except Failure Answer}
      (made : r = (creation p (newContent content)).map .created) :
      Commits (.createServer name content) r (written (newContent content))

/-- The call saved a file and put back what was there before. -/
def RolledBack (r : Except Failure Answer) : Prop :=
  ∃ o, r = .ok (.outcome o) ∧ o.rolledBack = true

/-- What the call leaves to the next one. -/
def Turns (s : Site) (p : Path) (w : World) (c : Call) (r : Except Failure Answer) (v : World) :
    Prop :=
  Turn s.store p w v (Commits c r) (RolledBack r) (Reports r)

/-- In the middle of a call the places of backups are spared. -/
def Spared (s : Site) (p : Path) (w v : World) : Prop :=
  s.store.Spares (· <+: ·) w (p.placeFrom w.here) ((w.held p).getD []) v

theorem Turns.spared {r : Except Failure Answer} (h : s.Turns p w c r v) : s.Spared p w v :=
  h.spares.mono fun _ heq => heq ▸ List.prefix_rfl

theorem Copying.spared (h : s.Copying w p v) : s.Spared p w v := by
  rcases h with hv | ⟨content, name, place, k, hread, hslot, hv⟩
  · exact .of_alike hv
  · refine (Store.Spares.of_withFile hslot.lands.ne_nil hslot.vacant ?_).trans_alike hv
    rw [World.held_eq_some_iff.mpr hread]
    exact List.take_prefix k content

/-! ### Saves -/

private theorem commits_save {save : Save} (h : c.save? s = some save) (r : Except Failure Outcome)
    (bytes : Bytes) : Commits c (r.map .outcome) bytes ↔
      ∃ o, r = .ok o ∧ o.validated = true ∧ bytes = save.content := by
  unfold Call.save? at h
  split at h
  · cases h
    constructor
    · intro hc
      rcases r with failure | o
      · cases hc
      · cases hc with
        | config encoded validated => exact ⟨o, rfl, validated, (Except.ok.inj encoded).symm⟩
    · rintro ⟨o, rfl, validated, rfl⟩
      exact .config rfl validated
  · split at h
    · cases h
      constructor
      · intro hc
        rcases r with failure | o
        · cases hc
        · cases hc with
          | server encoded validated => exact ⟨o, rfl, validated, (Except.ok.inj encoded).symm⟩
      · rintro ⟨o, rfl, validated, rfl⟩
        exact .server rfl validated
    · cases h
  · cases h

theorem does_save_turn {save : Save} (h : c.save? s = some save) (hw : w.Regular) (hquiet : w.Quiet)
    (hs : ".." ∉ s.store.folder) :
    (s.call c).run.Does (s.Spared save.path w) w fun r v _ => s.Turns save.path w c r v := by
  obtain ⟨prior, name, place, hrun⟩ :=
    save.does_run hw.sound (hw.steady save.path) hquiet s.store s.controller
  rw [call_of_save h]
  refine (does_answer hrun).mono (fun v hv => hv.spares hw) ?_
  rintro r v es ⟨r', rfl, hends⟩
  refine (hends.turns hw hs (Call.save?_spec h).1).congr (commits_save h r') ?_ ?_
  · rintro ⟨o, ho, hback⟩
    rcases r' with failure | o'
    · cases ho
    · cases ho
      exact ⟨_, rfl, hback⟩
  · rintro name ⟨answer, hanswer, hreported⟩
    rcases r' with failure | o'
    · cases hanswer
    · cases hanswer
      exact ⟨_, rfl, hreported⟩

/-! ### Backups -/

theorem BacksUp.turn (h : s.BacksUp w p r v) (hw : w.Regular) (hs : ".." ∉ s.store.folder) :
    Turn s.store p w v (fun _ => False) False fun name => r = .ok (some name) := by
  cases h with
  | without hv hnone => exact .of_alike (World.alike_of_noting hv) (fun _ => id) hnone
  | @made content name place hread hslot =>
    have hheld : w.held p = some content := World.held_eq_some_iff.mpr hread
    have hset : w.tree.Sets place _ ((w.noting p.name).withFile place content).tree :=
      Tree.put_sets hslot.lands.ne_nil _
    have hne := hslot.ne_live hw hs
    refine ⟨?_, fun _ => False.elim, fun bytes hbytes => .inr ?_, False.elim, fun name' hname => ?_⟩
    · rw [hheld]
      exact (Store.Spares.of_withFile hslot.lands.ne_nil hslot.vacant rfl).trans_alike ⟨rfl, rfl⟩
    · rwa [Tree.bytesAt_congr (hset.other (Ne.symm hne))] at hbytes
    · obtain rfl := Option.some.inj (Except.ok.inj hname)
      refine ⟨hslot.owns, ?_⟩
      rw [← hslot.place_eq hw hs, hheld]
      exact ⟨hne, Tree.bytesAt_eq_some_iff.mpr ⟨_, _, hset.self⟩⟩

theorem does_createBackup_turn (hw : w.Regular) (hs : ".." ∉ s.store.folder) :
    (s.call .createBackup).run.Does (s.Spared s.config w) w
      fun r v _ => s.Turns s.config w .createBackup r v := by
  refine (does_answer (f := .backup) (s.does_createBackup w)).mono (fun v hv => hv.spared) ?_
  rintro r v es ⟨r', rfl, hbacks⟩
  refine (hbacks.turn hw hs).congr ?_ ?_ ?_
  · refine fun bytes => ⟨fun hcommits => ?_, False.elim⟩
    cases r' <;> cases hcommits
  · rintro ⟨o, ho, -⟩
    rcases r' with failure | name <;> cases ho
  · rintro name ⟨answer, hanswer, hreported⟩
    rcases r' with failure | name'
    · cases hanswer
    · cases hanswer
      cases hreported
      rfl

theorem BacksUp.here_eq (h : s.BacksUp w p r v) : v.here = w.here := by
  cases h with
  | without hv => exact (World.alike_of_noting hv).2
  | made => rfl

/-- The file is taken away after it was backed up, if that was possible. -/
theorem BacksUp.turn_removed {name : Option String} {backup : Option String}
    (h : s.BacksUp w p (.ok backup) v) (hw : w.Regular) (hs : ".." ∉ s.store.folder)
    (hne : p.placeFrom w.here ≠ []) :
    s.Turns p w (.deleteServer name) (.ok (.deleted backup))
      { v with tree := v.tree.remove (p.placeFrom w.here) } := by
  have hset := Tree.remove_sets (t := v.tree) hne
  have hturn := h.turn hw hs
  refine ⟨hturn.spares.trans_sets hset (.inr rfl), ?_, fun bytes hbytes => ?_, ?_, ?_⟩
  · rintro bytes ⟨⟩
  · rw [Tree.bytesAt, hset.self] at hbytes
    cases hbytes
  · rintro ⟨o, ⟨⟩, -⟩
  · rintro name ⟨answer, ⟨⟩, hreported⟩
    obtain rfl : backup = some name := hreported
    obtain ⟨howns, hother, hbytes⟩ := hturn.reports name rfl
    exact ⟨howns, hother, (Tree.bytesAt_congr (hset.other hother)).trans hbytes⟩

/-! ### Server files -/

theorem does_createServer_turn {name : Option String} {content : Option RawText} (hw : w.Regular)
    (hp : s.serverPath name = .ok p) :
    (s.call (.createServer name content)).run.Does (s.Spared p w) w
      fun r v _ => s.Turns p w (.createServer name content) r v := by
  have hput {q : Path} {place : Place} (hq : s.serverPath name = .ok q) (hlands : w.Lands q place)
      (bytes : Bytes) : q = p ∧ place = p.placeFrom w.here ∧ ∀ {R},
        s.store.Spares R w (p.placeFrom w.here) ((w.held p).getD []) (w.withFile place bytes) := by
    obtain rfl := Except.ok.inj (hq.symm.trans hp)
    have hplace := hw.place_eq hlands.walk
    exact ⟨rfl, hplace, (Store.Spares.of_alike (.refl w)).trans_put rfl hlands.ne_nil (.inr hplace)⟩
  refine (does_answer (s.does_createServer_ends w name content)).mono ?_ ?_
  · rintro v (rfl | ⟨q, place, k, hq, hlands, rfl⟩)
    · exact .of_alike (.refl v)
    · exact (hput hq hlands _).2.2
  rintro r v es ⟨r', rfl, ⟨failure, rfl, rfl, huncreated⟩ | ⟨q, place, hq, hvacancy, rfl, rfl⟩⟩
  · refine .of_alike (.refl v) (fun bytes hcommits => ?_) ?_
    · cases hcommits with
      | created made =>
        cases hcontent : newContent content with
        | whole text =>
          rw [hcontent] at made
          cases made
        | broken text =>
          rw [hcontent] at made
          rw [Except.error.inj made] at huncreated
          cases huncreated
    · rintro name ⟨answer, ⟨⟩, -⟩
  obtain ⟨hlands, hnone⟩ := World.vacancy_eq_ok_iff.mp hvacancy
  obtain ⟨rfl, hplace, hspared⟩ := hput hq hlands (written (newContent content))
  have hset := Tree.put_sets (t := w.tree) hlands.ne_nil
    (.file (written (newContent content)) World.plainMode .lately)
  refine ⟨hspared, fun bytes hcommits => ?_, fun bytes hbytes => .inl ?_, ?_, ?_⟩
  · cases hcommits
    exact (hlands.at_put _ _ _).read_file hset.self
  · rw [← hplace, Tree.bytesAt] at hbytes
    rw [show (w.withFile place _).tree.get? place = _ from hset.self] at hbytes
    cases hbytes
    exact .created rfl
  · rintro ⟨o, ho, -⟩
    cases hcontent : newContent content <;> rw [hcontent] at ho <;> cases ho
  · rintro name ⟨answer, hanswer, hreported⟩
    cases hcontent : newContent content <;> rw [hcontent] at hanswer <;> cases hanswer
    cases hreported

/-- A file that is taken away leaves its place vacant. -/
theorem unlink_eq (hv : v.Regular) {u : World} (h : v.unlink p = (.ok (), u)) :
    p.placeFrom v.here ≠ [] ∧ u = { v with tree := v.tree.remove (p.placeFrom v.here) } := by
  unfold World.unlink at h
  split at h
  · cases h
  · next place hwalk =>
    split at h
    · cases h
    · cases h
    · next node hnofolder hget =>
      obtain rfl := hv.place_eq hwalk
      refine ⟨?_, (Prod.mk.inj h).2.symm⟩
      intro hnil
      rw [hnil, Tree.get?_nil] at hget
      exact hnofolder (Option.some.inj hget).symm

theorem does_deleteServer_turn {name : Option String} (hw : w.Regular) (hs : ".." ∉ s.store.folder)
    (hp : s.serverPath name = .ok p) :
    (s.call (.deleteServer name)).run.Does (s.Spared p w) w
      fun r v _ => s.Turns p w (.deleteServer name) r v := by
  have hsame : s.Spared p w w := .of_alike (.refl w)
  have hfails {r : Except Failure (Option String)} {v : World} (h : s.BacksUp w p r v)
      (failure : Failure) : s.Turns p w (.deleteServer name) (.error failure) v := by
    refine (h.turn hw hs).congr (fun bytes => ⟨fun hcommits => ?_, False.elim⟩) ?_ ?_
    · cases hcommits
    · rintro ⟨o, ⟨⟩, -⟩
    · rintro name' ⟨answer, ⟨⟩, -⟩
  have hbalks (failure : Failure) : s.Turns p w (.deleteServer name) (.error failure) w :=
    hfails (.without (r := .ok none) (.inl rfl) nofun) failure
  have hdeletes : (s.deleteServer name).run.Does (s.Spared p w) w fun r v _ =>
      s.Turns p w (.deleteServer name) (r.map .deleted) v := by
    rw [deleteServer]
    refine does_andThen.mpr (does_serverPathTask.mpr ⟨hsame, ?_⟩)
    rw [hp]
    refine Lock.does_hold _ hsame (fun place => hbalks _) ?_
    refine does_andThen.mpr (Task.does_ofFile.mpr (FileTask.does_leads.mpr ⟨hsame, ?_⟩))
    rcases FileTask.leadsIn w p _ with f | (_ | _)
    · exact ⟨hsame, hbalks _⟩
    · exact Task.does_refuse.mpr ⟨hsame, hbalks _⟩
    refine does_andThen.mpr ((s.does_backUpIfPossible w p).mono (fun v hv => hv.spared) ?_)
    rintro r v es ⟨⟨backup, rfl⟩, hbacks⟩
    refine does_andThen.mpr (Task.does_attemptFile.mpr (FileTask.does_unlink.mpr ?_))
    have hspared := hbacks.copying.spared
    have hv := hbacks.regular hw
    rcases v.unlink_cases p with ⟨f, hunlink⟩ | ⟨place, hunlink⟩
    · rw [hunlink]
      refine ⟨hspared, hspared, ?_⟩
      dsimp only
      split
      · exact Task.does_refuse.mpr ⟨hspared, hfails hbacks _⟩
      · exact Task.does_refuse.mpr ⟨hspared, hfails hbacks _⟩
    · obtain ⟨hne, heq⟩ := unlink_eq hv hunlink
      have hplace : p.placeFrom v.here = p.placeFrom w.here := by rw [hbacks.here_eq]
      rw [hplace] at hne heq
      rw [hunlink, heq]
      have hturn : s.Turns p w (.deleteServer name) (.ok (.deleted backup))
          { v with tree := v.tree.remove (p.placeFrom w.here) } := hbacks.turn_removed hw hs hne
      exact ⟨hspared, hturn.spared, does_pure.mpr ⟨hturn.spared, hturn⟩⟩
  refine (does_answer hdeletes).mono (fun _ hv => hv) ?_
  rintro r v es ⟨r', rfl, hturn⟩
  exact hturn

/-- Every call that works on one file has its turn there. -/
theorem does_turn (hc : c.WorksOn s p) (hw : w.Regular) (hquiet : w.Quiet)
    (hs : ".." ∉ s.store.folder) :
    (s.call c).run.Does (s.Spared p w) w fun r v _ => s.Turns p w c r v := by
  cases c with
  | saveConfig content =>
    cases content with
    | whole text =>
      obtain rfl : s.config = p := hc
      have hsave : (Call.saveConfig (.whole text)).save? s = some (s.configSave text) := rfl
      exact does_save_turn hsave hw hquiet hs
    | broken text => exact hc.elim
  | createBackup =>
    obtain rfl : s.config = p := hc
    exact does_createBackup_turn hw hs
  | saveServer name content =>
    cases content with
    | whole text =>
      have hp : s.serverPath name = .ok p := hc
      have hsave : (Call.saveServer name (.whole text)).save? s = some (s.serverSave p text) := by
        rw [Call.save?, hp]
      exact does_save_turn hsave hw hquiet hs
    | broken text => exact hc.elim
  | createServer name content => exact does_createServer_turn hw hc
  | deleteServer name => exact does_deleteServer_turn hw hs hc
  | _ => exact hc.elim

end Site
end ConfigSteward
