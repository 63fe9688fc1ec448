import ConfigSteward.Proofs.Save.Settling
import ConfigSteward.Proofs.Site.Calls
import ConfigSteward.Proofs.Site.Targets

/-!
# What calls do to the tree

A site stands in a tree of files and folders with its store apart from its configuration, and it does
so after any call. Reading and testing change nothing, making and deleting a backup touches backups
alone, and a save settles as `Save.Ends.settles` says.
-/
namespace ConfigSteward

open Plan

namespace Site

variable {s : Site} {w v : World} {st : Step} {c : Call} {name : String}

/-- The tree has files and folders alone, the store's folder is a resolved place, and the primary
configuration is none of its entries. -/
structure Sited (s : Site) (w : World) : Prop where
  regular : w.Regular
  resolved : ".." ∉ s.store.folder
  apart : (s.config.placeFrom w.here).dropLast ≠ s.store.folder

theorem Sited.of_alike (h : s.Sited w) (hv : w.Alike v) : s.Sited v :=
  ⟨h.regular.of_alike hv, h.resolved, hv.2 ▸ h.apart⟩

theorem Sited.advance (h : s.Sited w) (hquiet : (st.meets w).Quiet) : s.Sited (s.calls.advance w st) := by
  have hmeets := h.of_alike (st.meets_alike w)
  refine ⟨run_regular _ hmeets.regular hquiet, h.resolved, ?_⟩
  rw [advance_eq, run_here]
  exact h.apart

theorem Sited.not_owned (h : s.Sited w) {p : Path} (hp : s.Managed p) :
    ¬ s.store.Owns (p.placeFrom w.here) := hp.not_owned h.apart

@[simp] theorem after_here (s : Site) (w : World) (steps : List Step) :
    (s.calls.after w steps).here = w.here :=
  Calls.after_invariant (I := fun v => v.here = w.here) rfl fun _ hv _ _ =>
    (run_here _ _).trans hv

section
variable {steps : List Step} (hw : w.Regular) (hsteps : ∀ st ∈ steps, (st.meets w).Quiet)
include hw hsteps

/-- Programs that touch no file leave a tree of files and folders one, with its folders in place. -/
theorem regular_below_after :
    (s.calls.after w steps).Regular ∧ w.tree.Below (s.calls.after w steps).tree := by
  refine Calls.after_invariant (I := fun v => v.Regular ∧ w.tree.Below v.tree)
    ⟨hw, .of_eq fun _ => rfl⟩ fun v ⟨hregular, hbelow⟩ st hst => ?_
  have hquiet : (st.meets v).Quiet := hsteps st hst
  have hmeets := hregular.of_alike (st.meets_alike v)
  exact ⟨run_regular _ hmeets hquiet, hbelow.trans (run_below _ hmeets hquiet)⟩

theorem regular_after : (s.calls.after w steps).Regular := (regular_below_after hw hsteps).1

theorem below_after : w.tree.Below (s.calls.after w steps).tree := (regular_below_after hw hsteps).2

end

/-- What a task gives is made an answer. -/
theorem does_answer {α : Type} {I : World → Prop} {task : Task α} {f : α → Answer}
    {Q : Except Failure α → World → List Execution → Prop} (h : task.run.Does I w Q) :
    (task >>= fun a => pure (f a)).run.Does I w fun r v es => ∃ r', r = r'.map f ∧ Q r' v es := by
  refine does_andThen.mpr (h.imp fun r v es hv hQ => ?_)
  cases r with
  | ok a => exact does_pure.mpr ⟨hv, .ok a, rfl, by simpa using hQ⟩
  | error failure => exact ⟨hv, .error failure, rfl, hQ⟩

/-- A step ends as its call does. -/
theorem Step.ends {I : World → Prop} {Q : Except Failure Answer → World → List Execution → Prop}
    {task : Task Answer} (hcall : s.call st.call = task) (h : task.run.Does I (st.meets w) Q) :
    ∃ es, Q (s.calls.reply w st) (s.calls.advance w st) es := by
  subst hcall
  exact ⟨_, h.ends⟩

/-! ### Backups of a file that is about to change -/

/-- What backing up a file does. -/
inductive BacksUp (s : Site) (w : World) (p : Path) :
    Except Failure (Option String) → World → Prop where
  | without {r : Except Failure (Option String)} {v : World} (hv : v = w ∨ v = w.noting p.name)
      (hnone : ∀ name, r ≠ .ok (some name)) : BacksUp s w p r v
  | made {content : Bytes} {name : String} {place : Place} (hread : w.read p = .ok content)
      (hslot : s.store.Slot w p.name name place) :
      BacksUp s w p (.ok (some name)) ((w.noting p.name).withFile place content)

namespace BacksUp

variable {p : Path} {r : Except Failure (Option String)}

theorem of_creates {content : Bytes} {place : Place} {r : Except Failure Backup}
    {es : List Execution} (hread : w.read p = .ok content)
    (h : s.store.Creates w p.name content name place r v es) :
    s.BacksUp w p (r.map fun b => some b.name) v := by
  obtain ⟨-, ⟨refusal, rfl, hv⟩ | ⟨hslot, rfl, rfl⟩⟩ := h
  · exact .without hv nofun
  · exact .made hread hslot

theorem notes (h : s.BacksUp w p r v) : w.Notes v := by
  cases h with
  | without hv => exact World.notes_of_noting hv
  | made => exact .inr ⟨_, rfl⟩

theorem programs_eq (h : s.BacksUp w p r v) : v.programs = w.programs := by
  cases h with
  | without hv =>
    rcases hv with rfl | rfl
    · rfl
    · rfl
  | made => rfl

theorem regular (h : s.BacksUp w p r v) (hw : w.Regular) : v.Regular := by
  cases h with
  | without hv => exact hw.of_alike (World.alike_of_noting hv)
  | made _ hslot => exact hslot.regular hw _

/-- Only a backup is new. -/
theorem alters_free (h : s.BacksUp w p r v) (hw : w.Regular) (hresolved : ".." ∉ s.store.folder) :
    w.Alters v (s.store.Free w) := by
  cases h with
  | without hv => exact .of_alike (World.alike_of_noting hv)
  | made _ hslot => exact hslot.alters hw hresolved _

theorem alters (h : s.BacksUp w p r v) (hs : s.Sited w) : w.Alters v (s.store.Free w) :=
  h.alters_free hs.regular hs.resolved

/-- A backup that is reported holds what the file held. -/
theorem holds (h : s.BacksUp w p (.ok (some name)) v) :
    ∃ place, s.store.Slot w p.name name place ∧
      ∀ bytes, w.read p = .ok bytes → v.read (s.store.pathOf name) = .ok bytes := by
  cases h with
  | without _ hnone => exact absurd rfl (hnone name)
  | made hread hslot =>
    refine ⟨_, hslot, fun bytes hread' => ?_⟩
    cases hread.symm.trans hread'
    exact hslot.read_new _

end BacksUp

/-- The worlds in the middle of backing a file up. -/
def Copying (s : Site) (w : World) (p : Path) (v : World) : Prop :=
  w.Alike v ∨ ∃ content name place k, w.read p = .ok content ∧
    s.store.Slot w p.name name place ∧ (w.withFile place (content.take k)).Alike v

theorem BacksUp.copying {p : Path} {r : Except Failure (Option String)} (h : s.BacksUp w p r v) :
    s.Copying w p v := by
  cases h with
  | without hv => exact .inl (World.alike_of_noting hv)
  | @made content name place hread hslot =>
    refine .inr ⟨content, name, place, content.length, hread, hslot, ?_⟩
    rw [List.take_length]
    exact ⟨rfl, rfl⟩

/-- Making a backup of what a file holds. -/
theorem does_create_copying (s : Site) {p : Path} {content : Bytes} (hread : w.read p = .ok content) :
    (s.store.create p.name content).run.Does (s.Copying w p) w fun r v _ =>
      s.BacksUp w p (r.map fun b => some b.name) v ∧
        ∀ failure, r = .error failure → ∃ refusal, failure = .refused refusal := by
  obtain ⟨name, place, hcreate⟩ := s.store.does_create w p.name content
  refine hcreate.mono ?_ fun r v es hcreates => ⟨.of_creates hread hcreates, ?_⟩
  · rintro v (hv | ⟨hslot, k, hv⟩)
    · exact .inl hv
    · exact .inr ⟨content, name, place, k, hread, hslot, hv⟩
  · rintro failure rfl
    obtain ⟨-, ⟨refusal, heq, -⟩ | ⟨-, heq, -⟩⟩ := hcreates
    · exact ⟨refusal, Except.error.inj heq⟩
    · cases heq

/-- Making a backup of the configuration backs it up. -/
theorem does_createBackup (s : Site) (w : World) :
    s.createBackup.run.Does (s.Copying w s.config) w fun r v _ =>
      s.BacksUp w s.config (r.map some) v := by
  have hw : s.Copying w s.config w := .inl (.refl w)
  have hsame (failure : Failure) : s.BacksUp w s.config (.error failure) w :=
    .without (.inl rfl) nofun
  refine Lock.does_hold _ hw (fun place => hsame _) ?_
  refine does_andThen.mpr (Task.does_attemptFile.mpr (FileTask.does_read.mpr ⟨hw, ?_⟩))
  rcases hread : w.read s.config with f | content
  · dsimp only
    split
    · exact Task.does_refuse.mpr ⟨hw, hsame _⟩
    · exact Task.does_refuse.mpr ⟨hw, hsame _⟩
  · refine does_andThen.mpr ((s.does_create_copying hread).mono (fun _ hv => hv) ?_)
    rintro r v es ⟨hbacks, -⟩
    cases r with
    | ok b => exact does_pure.mpr ⟨hbacks.copying, hbacks⟩
    | error failure => exact ⟨hbacks.copying, hbacks⟩

/-- The call failed, and all that is there stays. -/
structure Balks {α : Type} (w : World) (r : Except Failure α) (v : World) : Prop where
  failed : ∃ failure, r = .error failure
  alters : w.Alters v w.Vacant
  notes : w.Notes v

theorem Balks.same {α : Type} (w : World) (failure : Failure) :
    Balks w (.error failure : Except Failure α) w :=
  ⟨⟨failure, rfl⟩, .of_alike (.refl w), .inl rfl⟩

theorem BacksUp.balks {α : Type} {p : Path} {r : Except Failure (Option String)}
    (h : s.BacksUp w p r v) (hs : s.Sited w) (failure : Failure) :
    Balks w (.error failure : Except Failure α) v :=
  ⟨⟨failure, rfl⟩, (h.alters hs).mono fun _ hq => hq.2, h.notes⟩

/-- The file was backed up, if that was possible, and then it alone changed. -/
structure Exchanges (s : Site) (w : World) (p : Path) (backup : Option String) (v : World) :
    Prop where
  backed : ∃ u, s.BacksUp w p (.ok backup) u ∧ v.noted = u.noted ∧
    u.Alters v (· = p.placeFrom w.here)

namespace Exchanges

variable {p : Path} {backup : Option String}

theorem notes (h : s.Exchanges w p backup v) : w.Notes v := by
  obtain ⟨u, hbacks, hnoted, -⟩ := h.backed
  rw [World.Notes, hnoted]
  exact hbacks.notes

theorem alters (h : s.Exchanges w p backup v) (hs : s.Sited w) :
    w.Alters v fun q => w.Vacant q ∨ q = p.placeFrom w.here := by
  obtain ⟨u, hbacks, -, halters⟩ := h.backed
  exact ((hbacks.alters hs).mono fun _ hq => .inl hq.2).trans (halters.mono fun _ hq => .inr hq)

/-- A backup that is reported holds what the file held before it changed. -/
theorem holds (h : s.Exchanges w p (some name) v) (hs : s.Sited w) (hp : s.Managed p) :
    ∃ place, s.store.Slot w p.name name place ∧
      ∀ bytes, w.read p = .ok bytes → v.read (s.store.pathOf name) = .ok bytes := by
  obtain ⟨u, hbacks, -, halters⟩ := h.backed
  obtain ⟨place, hslot, hholds⟩ := hbacks.holds
  refine ⟨place, hslot, fun bytes hread => ?_⟩
  refine (hbacks.regular hs.regular).read_kept halters ?_ (hholds bytes hread)
  rw [Store.placeFrom_pathOf hs.resolved hslot.endsIn]
  exact fun heq => hs.not_owned hp ⟨name, hslot.endsIn, heq.symm⟩

end Exchanges

/-! ### Saves -/

/-- The save that a call stands for. -/
def Call.save? (s : Site) : Call → Option Save
  | .saveConfig (.whole text) => some (s.configSave text)
  | .saveServer name (.whole text) =>
    match s.serverPath name with
    | .ok p => some (s.serverSave p text)
    | .error _ => none
  | _ => none

/-- The call saves a content. -/
def Call.Saves : Call → Prop
  | saveConfig _ | saveServer _ _ => True
  | _ => False

/-- A call that saves stands for a save, or it fails at once: its name is refused or its content
cannot be encoded. -/
theorem save_or_failure (s : Site) (hc : c.Saves) :
    (∃ save, c.save? s = some save) ∨ ∃ failure, s.call c = throw failure := by
  cases c with
  | saveConfig content =>
    cases content with
    | whole text => exact .inl ⟨_, rfl⟩
    | broken text => exact .inr ⟨.unencodable text, rfl⟩
  | saveServer name content =>
    rcases hp : s.serverPath name with refusal | p
    · refine .inr ⟨.refused refusal, ?_⟩
      simp only [call, saveServer, serverPathTask, hp]
      rfl
    cases content with
    | whole text => exact .inl ⟨s.serverSave p text, by simp only [Call.save?, hp]⟩
    | broken text =>
      refine .inr ⟨.unencodable text, ?_⟩
      simp only [call, saveServer, serverPathTask, hp, pure_bind]
      rfl
  | _ => exact hc.elim

/-- A call saves the configuration or a server file, under the file's name. -/
theorem Call.save?_spec {save : Save} (h : c.save? s = some save) :
    save.artifact = save.path.name ∧
      (save.path = s.config ∨ ∃ name, s.serverPath name = .ok save.path) := by
  unfold save? at h
  split at h
  · cases h
    exact ⟨rfl, .inl rfl⟩
  · next name content =>
    split at h
    · next p hp =>
      cases h
      exact ⟨rfl, .inr ⟨name, hp⟩⟩
    · cases h
  · cases h

theorem Call.path_saveConfig {content : RawText} {save : Save}
    (h : Call.save? s (.saveConfig content) = some save) : save.path = s.config := by
  cases content with
  | whole text =>
    cases h
    rfl
  | broken text => cases h

theorem Call.path_saveServer {name : Option String} {content : RawText} {save : Save}
    (h : Call.save? s (.saveServer name content) = some save) : s.serverPath name = .ok save.path := by
  cases content with
  | whole text =>
    rcases hp : s.serverPath name with refusal | p
    · simp only [Call.save?, hp, reduceCtorEq] at h
    · simp only [Call.save?, hp, Option.some.injEq] at h
      rw [← h]
      rfl
  | broken text => cases h

theorem Call.managed_of_save {save : Save} (h : c.save? s = some save) : s.Managed save.path := by
  rcases (save?_spec h).2 with hconfig | ⟨name, hp⟩
  · rw [hconfig]
    exact .config
  · exact (target_of_serverPath hp).managed

theorem call_of_save {save : Save} (h : c.save? s = some save) :
    s.call c = do return .outcome (← save.run s.store s.controller) := by
  unfold Call.save? at h
  split at h
  · cases h
    rfl
  · next name content =>
    split at h
    · next p hp =>
      cases h
      simp only [call, saveServer, serverPathTask, hp, pure_bind]
    · cases h
  · cases h

/-- A call that saves ends as its save does. -/
theorem does_save {save : Save} (h : c.save? s = some save) (hw : w.Regular) (hquiet : w.Quiet) :
    ∃ prior name place, (s.call c).run.Does (fun _ => True) w fun r v es =>
      ∃ r', r = r'.map Answer.outcome ∧
        save.Ends s.store s.controller w prior name place r' v es := by
  obtain ⟨prior, name, place, hrun⟩ :=
    save.does_run hw.sound (hw.steady save.path) hquiet s.store s.controller
  refine ⟨prior, name, place, ?_⟩
  rw [call_of_save h]
  exact does_answer (hrun.mono (fun _ _ => trivial) fun _ _ _ hends => hends)

end Site
end ConfigSteward
