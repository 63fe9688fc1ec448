import ConfigSteward.Proofs.Files.Resolving
import ConfigSteward.Proofs.Save.Answering
import ConfigSteward.Proofs.Site.Calls
import ConfigSteward.Proofs.World.Braving

/-!
# What escapes from calls

Whatever goes wrong, a call that cannot do its work refuses: the faults of its file calls become
refusals or part of an outcome. Two things escape: the fault of a test of whether there is a file, and
that a content cannot be encoded.
-/
namespace ConfigSteward

open Plan

variable {α β : Type} {hazard : Hazard} {w v : World}

/-- Every program returns a result, whatever it does to the files. -/
def World.Returns (w : World) : Prop :=
  ∀ ran args tree, ∃ result, (w.programs ran args tree).1 = .ok result

theorem Plan.MayEnd.returns {p : Plan α} {a : α} (h : p.MayEnd hazard w a v) (hw : w.Returns) :
    v.Returns := by
  refine h.keeps (fun u r hu => ?_) hw
  rw [World.Returns, (u.perform_frame r).2.2]
  exact hu

/-- A failure with which a task may end amid mishaps that makes these tests of whether there are files
and has this text to encode: it refuses, a test failed or the text cannot be encoded. -/
inductive Escape (hazard : Hazard) (w : World) (tests : List Path) (text? : Option BrokenText) :
    Failure → Prop where
  | refused (refusal : Refusal) : Escape hazard w tests text? (.refused refusal)
  | tested {p : Path} {f : Fault} (made : p ∈ tests) (telling : f.cause.leadsNowhere = false)
      (looked : w.look p = .error f ∨ hazard.strikes w (.look p) f) :
      Escape hazard w tests text? (.fault f)
  | unencodable {text : BrokenText} (broken : text? = some text) :
      Escape hazard w tests text? (.unencodable text)

namespace Task

variable {p : Path} {tests : List Path} {text? : Option BrokenText} {F F' : Failure → Prop}
  {task : Task α} {f : α → Task β}

/-- However its calls fare, the task gives a result or fails with one of the failures. -/
def Throws (hazard : Hazard) (F : Failure → Prop) (task : Task α) (w : World) : Prop :=
  ∀ failure v, task.run.MayEnd hazard w (.error failure) v → F failure

/-- Wherever programs return, the task gives a result or refuses. -/
def Proper (task : Task α) : Prop :=
  ∀ hazard w, w.Returns →
    task.Throws hazard (fun failure => ∃ refusal, failure = .refused refusal) w

namespace Throws

private theorem of_always
    (h : task.run.Leaves hazard w fun r _ _ => ∀ failure, r = .error failure → F failure) :
    task.Throws hazard F w := fun failure v hend => always_iff.mp h _ v hend failure rfl

theorem mono (h : task.Throws hazard F w) (hF : ∀ failure, F failure → F' failure) :
    task.Throws hazard F' w := fun failure v hend => hF failure (h failure v hend)

theorem throw {failure : Failure} (h : F failure) :
    (throw failure : Task α).Throws hazard F w := by
  rintro _ v ⟨⟨⟩, -⟩
  exact h

theorem andThen (h : task.Throws hazard F w) (hw : w.Returns)
    (hf : ∀ a u, u.Returns → (f a).Throws hazard F u) : (task >>= f).Throws hazard F w := by
  intro failure v hend
  rcases mayEnd_andThen.mp hend with ⟨e, ht, ⟨⟩⟩ | ⟨a, u, ht, hrest⟩
  · exact h failure v ht
  · exact hf a u (ht.returns hw) failure v hrest

/-- Where no link leads back to itself, locks can always be taken. -/
theorem hold (hloops : w.tree.LoopFree) (h : task.Throws hazard F w) (paths : List Path) :
    (Lock.hold paths task).Throws hazard F w := fun failure v hend =>
  h failure v (Lock.mayEnd_of_hold (fun p _ => hloops.resolve w.here p) hend)

end Throws

namespace Proper

theorem pure (a : α) : (Pure.pure a : Task α).Proper := by
  rintro hazard w - failure v ⟨⟨⟩, -⟩

theorem refuse (refusal : Refusal) : (Task.refuse refusal : Task α).Proper := fun _ _ _ =>
  .throw ⟨refusal, rfl⟩

theorem andThen (h : task.Proper) (hf : ∀ a, (f a).Proper) : (task >>= f).Proper :=
  fun hazard w hw => (h hazard w hw).andThen hw fun a u hu => hf a hazard u hu

theorem of_sure (h : task.Sure) : task.Proper := fun hazard w _ => .of_always <|
  (h hazard w).mono <| by
    rintro r v marks ⟨a, rfl⟩ failure ⟨⟩

theorem attempt (task : Task α) : (Task.attempt task).Proper := of_sure (.attempt task)

theorem attemptFile (task : FileTask α) : (Task.attemptFile task).Proper :=
  of_sure (.attemptFile task)

/-- A file task whose fault is made a refusal. -/
theorem ofFileOr (refusal : Fault → Refusal) (task : FileTask α) :
    (Task.ofFileOr refusal task).Proper := fun _ _ _ => by
  refine .of_always (always_ofFileOr.mpr (always_iff.mpr ?_))
  rintro (f | a) v - failure hfailure
  · cases hfailure
    exact ⟨refusal f, rfl⟩
  · cases hfailure

/-- One of two refusals. -/
theorem oneOf {c : Prop} [Decidable c] (a b : Refusal) :
    (if c then Task.refuse a else Task.refuse b : Task α).Proper := by
  split
  · exact refuse a
  · exact refuse b

/-- Making a backup succeeds or is refused. -/
theorem create (s : Store) (artifact : String) (content : Bytes) :
    (s.create artifact content).Proper := fun hazard w _ => .of_always <|
  (s.always_create w artifact content).mono <| by
    rintro r v marks hcreated failure rfl
    obtain ⟨-, ⟨refusal, rfl, -⟩, -⟩ := hcreated
    exact ⟨refusal, rfl⟩

theorem run (args : List String) : (Controller.run args).Proper := by
  intro hazard w hw
  refine .of_always ((Plan.always_sure (r := .run args) fun _ => rfl).mpr fun failure hfailure => ?_)
  obtain ⟨result, hresult⟩ := hw w.ran args w.tree
  cases hresult.symm.trans hfailure

theorem escapes (h : task.Proper) (hw : w.Returns) :
    task.Throws hazard (Escape hazard w tests text?) w :=
  (h hazard w hw).mono fun _ ⟨refusal, hrefusal⟩ => hrefusal ▸ .refused refusal

end Proper

/-- What follows a proper task only refuses if it is proper itself. -/
theorem Throws.andThen_proper (h : task.Throws hazard (Escape hazard w tests text?) w)
    (hw : w.Returns) (hf : ∀ a, (f a).Proper) :
    (task >>= f).Throws hazard (Escape hazard w tests text?) w :=
  h.andThen hw fun a u hu => (hf a hazard u hu).mono fun _ ⟨refusal, hrefusal⟩ =>
    hrefusal ▸ .refused refusal

/-- A test that fails lets its fault escape. -/
theorem escapes_leads {test : Status → Bool} {f : Bool → Task β} (hp : p ∈ tests)
    (hf : ∀ there, (f there).Throws hazard (Escape hazard w tests text?) w) :
    (Task.ofFile (FileTask.leads p test) >>= f).Throws hazard (Escape hazard w tests text?) w := by
  have htest : (Task.ofFile (FileTask.leads p test)).run.Leaves hazard w fun r v _ =>
      v = w ∧ ∀ failure, r = .error failure → Escape hazard w tests text? failure := by
    refine always_ofFile.mpr (FileTask.always_leads.mpr ⟨⟨rfl, ?_⟩, fun f hstrikes => ⟨rfl, ?_⟩⟩)
    · rw [FileTask.leadsIn]
      rcases hlook : w.look p with f | status
      · by_cases hnowhere : f.cause.leadsNowhere = true
        · simp [hnowhere, Except.mapError]
        · rintro failure hfailure
          simp only [hnowhere, Except.mapError] at hfailure
          cases hfailure
          exact .tested hp (Bool.eq_false_iff.mpr hnowhere) (.inl hlook)
      · simp [Except.mapError]
    · by_cases hnowhere : f.cause.leadsNowhere = true
      · simp [hnowhere, Except.mapError]
      · rintro failure hfailure
        simp only [hnowhere, Except.mapError] at hfailure
        cases hfailure
        exact .tested hp (Bool.eq_false_iff.mpr hnowhere) (.inr hstrikes)
  intro failure v hend
  rcases mayEnd_andThen.mp hend with ⟨e, ht, ⟨⟩⟩ | ⟨there, u, ht, hrest⟩
  · exact (always_iff.mp htest _ v ht).2 failure rfl
  · obtain rfl := (always_iff.mp htest _ u ht).1
    exact hf there failure v hrest

end Task

/-! ### Backups -/

namespace Store

variable {s : Store} {name : String} {tests after : List Path} {text? : Option BrokenText}

/-- The path at which a backup is tested for and, once it is found there, paths tested after it. A
name that can be no backup's leads to no test. -/
def tested (s : Store) (w : World) (name : String) (after : List Path) : List Path :=
  if Name.isSafe name && Name.endsIn Name.backupSuffix name then
    match w.tree.resolve w.here (s.pathOf name) with
    | .ok place => if place.dropLast = s.folder then place.path :: after else []
    | .error _ => []
  else []

/-- Finding a backup makes one test. -/
theorem escapes_find {f : Path → Task α} (hloops : w.tree.LoopFree) (hw : w.Returns)
    (hf : ∀ p, (∀ q ∈ after, q ∈ s.tested w name after) →
      (f p).Throws hazard (Escape hazard w (s.tested w name after) text?) w) :
    (s.find name >>= f).Throws hazard (Escape hazard w (s.tested w name after) text?) w := by
  have hrefuse (refusal : Refusal) : (Task.refuse refusal >>= f : Task α).Throws hazard
      (Escape hazard w (s.tested w name after) text?) w := .throw (.refused refusal)
  rw [find]
  by_cases hname : (Name.isSafe name && Name.endsIn Name.backupSuffix name) = true
  · obtain ⟨place, hplace⟩ := hloops.resolve w.here (s.pathOf name)
    simp only [hname, if_true, LawfulMonad.bind_assoc]
    intro failure v hend
    rcases mayEnd_andThen.mp hend with ⟨e, hresolve, -⟩ | ⟨place', u, hresolve, hrest⟩
    · obtain ⟨hr, -⟩ := (Task.mayEnd_resolve w _ _ v).mp hresolve
      rw [hplace] at hr
      cases hr
    obtain ⟨hr, rfl⟩ := (Task.mayEnd_resolve w _ _ u).mp hresolve
    rw [hplace] at hr
    cases hr
    by_cases hfolder : place.dropLast = s.folder
    · have htested : s.tested u name after = place.path :: after := by
        rw [tested, if_pos hname, hplace]
        exact if_pos hfolder
      rw [htested] at hf hrefuse ⊢
      simp only [hfolder, if_true, LawfulMonad.bind_assoc] at hrest
      refine Task.escapes_leads List.mem_cons_self (fun there => ?_) failure v hrest
      cases there with
      | true => simpa using hf place.path fun q hq => List.mem_cons_of_mem _ hq
      | false => exact hrefuse _
    · simp only [hfolder, if_false] at hrest
      exact hrefuse _ failure v hrest
  · simp only [hname]
    exact hrefuse _

private theorem escapes_get {f : Bytes → Task α} (hloops : w.tree.LoopFree) (hw : w.Returns)
    (hf : ∀ bytes, (∀ q ∈ after, q ∈ s.tested w name after) →
      (f bytes).Throws hazard (Escape hazard w (s.tested w name after) text?) w) :
    (s.get name >>= f).Throws hazard (Escape hazard w (s.tested w name after) text?) w := by
  rw [get, LawfulMonad.bind_assoc]
  refine escapes_find hloops hw fun p hafter failure v hend => ?_
  rcases mayEnd_andThen.mp hend with ⟨e, hread, ⟨⟩⟩ | ⟨bytes, u, hread, hrest⟩
  · exact (Task.Proper.ofFileOr _ _).escapes hw failure v hread
  · have hidle : (Task.ofFileOr (fun f => .fileAccess s!"Error reading backup {name}: {f.message}")
        (FileTask.read p)).run.Leaves hazard w fun _ v _ => v = w :=
      Task.always_ofFileOr.mpr (FileTask.always_read.mpr ⟨rfl, fun _ _ => rfl⟩)
    obtain rfl := always_iff.mp hidle _ u hread
    exact hf bytes hafter failure v hrest

private theorem escapes_delete (hloops : w.tree.LoopFree) (hw : w.Returns) :
    (s.delete name).Throws hazard (Escape hazard w (s.tested w name []) text?) w := by
  rw [delete]
  refine escapes_find hloops hw fun p _ =>
    (Task.Proper.andThen (.attemptFile _) fun r => ?_).escapes hw
  cases r with
  | ok => exact .pure ()
  | error f => exact .oneOf _ _

end Store

namespace Site

variable {s : Site}

/-! ### Calls -/

/-- The calls that describe every file of a folder. -/
def Call.Lists : Call → Prop
  | listServers | listBackups _ => True
  | _ => False

/-- The paths that a call tests for files, in order. A name that is refused leads to no test. -/
def tested (s : Site) (w : World) : Call → List Path
  | .renameServer old new =>
    match s.serverPath old, s.serverPath new with
    | .ok source, .ok target => [source, target]
    | _, _ => []
  | .deleteServer name => (s.serverPath name).toOption.toList
  | .readBackup name | .deleteBackup name => s.store.tested w name []
  | .restoreBackup name => s.store.tested w name (s.restoreTarget name).toOption.toList
  | _ => []

/-- The text of a call's content, if it cannot be encoded. -/
def Call.broken? : Call → Option BrokenText
  | .saveConfig (.broken text) | .saveServer _ (.broken text) => some text
  | .createServer _ content =>
    match newContent content with
    | .broken text => some text
    | .whole _ => none
  | _ => none

theorem proper_readText (p : Path) (label : String) : (readText p label).Proper := by
  refine .andThen (.attemptFile _) fun r => ?_
  cases r with
  | ok bytes => exact .pure _
  | error f => exact .oneOf _ _

theorem proper_serverPathTask (s : Site) (name : Option String) :
    (s.serverPathTask name).Proper := by
  unfold serverPathTask
  split
  · exact .pure _
  · exact .refuse _

theorem sure_backUpIfPossible (s : Site) (p : Path) : (s.backUpIfPossible p).Sure := by
  refine .andThen (.attemptFile _) fun r => ?_
  cases r with
  | error f => exact .pure _
  | ok content =>
    intro hazard w
    refine always_andThen.mpr (Task.always_attempt.mpr
      ((s.store.always_create w p.name content).mono ?_))
    rintro (failure | b) v marks hcreated
    · obtain ⟨-, ⟨refusal, rfl, -⟩, -⟩ := hcreated
      exact always_pure.mpr ⟨_, rfl⟩
    · exact always_pure.mpr ⟨_, rfl⟩

section
variable (hloops : w.tree.LoopFree) (hw : w.Returns)
include hloops hw

variable {tests : List Path} {text? : Option BrokenText}

private theorem escapes_save (save : Save) :
    (save.run s.store s.controller).Throws hazard (Escape hazard w tests text?) w :=
  .hold hloops ((Task.Proper.of_sure (save.sure_steps s.store s.controller)).escapes hw) [save.path]

private theorem escapes_saveServer (name : Option String) (content : RawText) :
    (s.saveServer name content).Throws hazard
      (Escape hazard w tests (Call.saveServer name content).broken?) w := by
  rw [saveServer, serverPathTask]
  rcases s.serverPath name with refusal | p
  · exact .throw (.refused refusal)
  cases content with
  | whole text => exact escapes_save hloops hw (s.serverSave p text)
  | broken text => exact .throw (.unencodable rfl)

private theorem escapes_createServer (name : Option String) (content : Option RawText) :
    (s.createServer name content).Throws hazard
      (Escape hazard w tests (Call.createServer name content).broken?) w := by
  rw [createServer, serverPathTask]
  rcases s.serverPath name with refusal | p
  · exact .throw (.refused refusal)
  refine Task.Throws.hold hloops ?_ [p]
  refine (Task.Proper.escapes (.attemptFile _) hw).andThen hw fun r u hu => ?_
  cases r with
  | error f =>
    refine (Task.Proper.oneOf _ _ hazard u hu).mono ?_
    rintro _ ⟨refusal, rfl⟩
    exact .refused refusal
  | ok =>
    rcases hcontent : newContent content with text | text
    · refine (Task.Proper.pure p hazard u hu).mono ?_
      rintro _ ⟨refusal, rfl⟩
      exact .refused refusal
    · exact .throw (.unencodable (by rw [Call.broken?, hcontent]))

private theorem escapes_createBackup : s.createBackup.Throws hazard (Escape hazard w tests text?) w := by
  refine Task.Throws.hold hloops (Task.Proper.escapes (.andThen (.attemptFile _) fun r => ?_) hw) _
  cases r with
  | ok content => exact .andThen (.create _ _ _) fun _ => .pure _
  | error f => exact .oneOf _ _

private theorem escapes_renameServer (old new : Option String) :
    (s.renameServer old new).Throws hazard
      (Escape hazard w (s.tested w (.renameServer old new)) text?) w := by
  rw [renameServer, serverPathTask, serverPathTask, tested]
  by_cases hnew : (new = none || new = some "") = true
  · rw [if_pos hnew]
    exact .throw (.refused _)
  rw [if_neg hnew]
  rcases s.serverPath old with refusal | source
  · exact .throw (.refused refusal)
  rcases s.serverPath new with refusal | target
  · exact .throw (.refused refusal)
  refine Task.Throws.hold hloops (Task.escapes_leads (by simp) fun there => ?_) [source, target]
  cases there with
  | false => exact .throw (.refused _)
  | true =>
    refine Task.escapes_leads (by simp) fun taken => ?_
    cases taken with
    | true => exact .throw (.refused _)
    | false => exact Task.Proper.escapes (.andThen (.ofFileOr _ _) fun _ => .pure _) hw

private theorem escapes_deleteServer (name : Option String) :
    (s.deleteServer name).Throws hazard
      (Escape hazard w (s.tested w (.deleteServer name)) text?) w := by
  rw [deleteServer, serverPathTask, tested]
  rcases s.serverPath name with refusal | p
  · exact .throw (.refused refusal)
  refine Task.Throws.hold hloops
    (Task.escapes_leads (List.mem_singleton.mpr rfl) fun there => ?_) [p]
  cases there with
  | false => exact .throw (.refused _)
  | true =>
    refine Task.Proper.escapes (.andThen (.of_sure (s.sure_backUpIfPossible p)) fun backup => ?_) hw
    refine .andThen (.attemptFile _) fun r => ?_
    cases r with
    | ok => exact .pure _
    | error f => exact .oneOf _ _

private theorem escapes_restoreBackup (name : String) :
    (s.restoreBackup name).Throws hazard
      (Escape hazard w (s.tested w (.restoreBackup name)) text?) w := by
  refine Store.escapes_get hloops hw fun content htests => ?_
  rcases htarget : s.restoreTarget name with refusal | target
  · exact .throw (.refused refusal)
  rw [htarget] at htests
  refine Task.Throws.hold hloops ?_ [target]
  refine Task.Throws.andThen_proper (Task.escapes_leads (htests target (by simp [Except.toOption]))
    fun there => ?_) hw fun backup => ?_
  · cases there with
    | false => exact (Task.Proper.pure none).escapes hw
    | true =>
      exact Task.Proper.escapes (.andThen (.ofFileOr _ _) fun content =>
        .andThen (.create s.store target.name content) fun _ => .pure _) hw
  · exact .andThen (.ofFileOr _ _) fun _ => .andThen (.run _) fun result => .pure _

/-- From a call that lists no folder only the faults of its tests and of encoding its content
escape. -/
theorem escapes_call {c : Call} (hc : ¬ c.Lists) :
    (s.call c).Throws hazard (Escape hazard w (s.tested w c) c.broken?) w := by
  have answered {α : Type} {task : Task α}
      (h : task.Throws hazard (Escape hazard w (s.tested w c) c.broken?) w) (f : α → Answer) :
      (task >>= fun a => pure (f a)).Throws hazard (Escape hazard w (s.tested w c) c.broken?) w :=
    h.andThen_proper hw fun _ => .pure _
  cases c with
  | readConfig =>
    exact answered (Task.Proper.escapes (.andThen (proper_readText _ _) fun _ => .pure _) hw) .config
  | saveConfig content =>
    refine answered ?_ .outcome
    cases content with
    | whole text => exact escapes_save hloops hw (s.configSave text)
    | broken text => exact .throw (.unencodable rfl)
  | testConfig => exact answered ((Task.Proper.run _).escapes hw) .tested
  | listServers | listBackups => exact absurd trivial hc
  | readServer name =>
    exact answered (Task.Proper.escapes (.andThen (s.proper_serverPathTask name)
      fun p => .andThen (proper_readText _ _) fun _ => .pure _) hw) .server
  | saveServer name content => exact answered (escapes_saveServer hloops hw name content) .outcome
  | createServer name content =>
    exact answered (escapes_createServer hloops hw name content) .created
  | renameServer old new =>
    exact answered (escapes_renameServer hloops hw old new) fun names => .renamed names.1 names.2
  | deleteServer name => exact answered (escapes_deleteServer hloops hw name) .deleted
  | createBackup => exact answered (escapes_createBackup hloops hw) .backup
  | readBackup name => exact Store.escapes_get hloops hw fun bytes _ => (Task.Proper.pure _).escapes hw
  | deleteBackup name => exact answered (Store.escapes_delete hloops hw) fun _ => .removed
  | restoreBackup name => exact answered (escapes_restoreBackup hloops hw name) .restored

end

end Site
end ConfigSteward
