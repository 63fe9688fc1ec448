import Mathlib
import ConfigSteward.Proofs.Servers.Contents
import ConfigSteward.Proofs.Site.Escaping
import ConfigSteward.Proofs.Site.ServerFiles
import ConfigSteward.Proofs.World.Noon

/-!
# Calls that refuse

A call that cannot do its work refuses, with two exceptions. The tests of whether a file is there take
a path that leads nowhere for a missing file, but not one with a name that is too long, whose fault
ends the call as it is. And where a content cannot be encoded the call ends with that.
-/
namespace ConfigSteward

open Plan

variable {α β : Type}

/-! ### Tests of whether files are there -/

theorem Tree.walkFrom_error {t : Tree} {follow : Bool} {links : Nat} {p : Place}
    {names : List String} {cause : Cause} (h : t.walkFrom follow links p names = .error cause) :
    cause.leadsNowhere = true ∨ cause = .nameTooLong := by
  fun_induction walkFrom t follow links p names with
  | case1 | case4 | case7 | case9 => cases h
  | case2 _ _ _ ih | case6 _ _ _ _ _ _ _ ih | case11 _ _ _ _ _ _ _ _ _ _ ih => exact ih h
  | case3 =>
    cases h
    exact .inr rfl
  | case5 | case8 | case10 =>
    cases h
    exact .inl rfl

namespace World

variable {w : World} {p : Path} {ps : List Path} {f : Fault}

/-- What cannot be looked at is not there, or a name on the way is too long. -/
theorem look_error (h : w.look p = .error f) :
    f.cause.leadsNowhere = true ∨
      w.tree.walk true w.here p = .error .nameTooLong ∧ f = ⟨.nameTooLong, p.text, none⟩ := by
  unfold look onNode fault at h
  rcases hwalk : w.tree.walk true w.here p with cause | place
  · simp only [hwalk, Except.error.injEq] at h
    subst h
    have hcause : cause.leadsNowhere = true ∨ cause = .nameTooLong := by
      rw [Tree.walk] at hwalk
      split at hwalk
      · exact .inr (Except.error.inj hwalk).symm
      · exact Tree.walkFrom_error hwalk
    rcases hcause with hcause | rfl
    · exact .inl hcause
    · exact .inr ⟨rfl, rfl⟩
  · left
    rcases hget : w.tree.get? place with _ | node
    · simp only [hwalk, hget, Except.error.injEq] at h
      subst h
      rfl
    · cases node <;> simp only [hwalk, hget, statusOf, Except.error.injEq, reduceCtorEq] at h
      subst h
      rfl

/-- What is looked at and found to be a file can be read. -/
theorem read_of_look {status : Status} (h : w.look p = .ok status) (hkind : status.kind = .file) :
    ∃ bytes, w.read p = .ok bytes := by
  unfold look onNode fault at h
  unfold read onNode
  rcases hwalk : w.tree.walk true w.here p with cause | place
  · simp only [hwalk, reduceCtorEq] at h
  rcases hget : w.tree.get? place with _ | node
  · simp only [hwalk, hget, reduceCtorEq] at h
  cases node with
  | file bytes => exact ⟨bytes, by simp only [hget]⟩
  | folder =>
    simp only [hwalk, hget, statusOf, Except.ok.injEq] at h
    subst h
    cases hkind
  | link => simp only [hwalk, hget, statusOf, reduceCtorEq] at h

/-- The fault of the first test, among tests of whether files are there, that is made and fails. A
test is made once the files before it were there. -/
def stumble (w : World) : List Path → Option Failure
  | [] => none
  | p :: ps =>
    match w.look p with
    | .ok status => if status.kind = .file then w.stumble ps else none
    | .error f => if f.cause.leadsNowhere then none else some (.fault f)

/-- Tests fail on names that are too long and on nothing else. -/
theorem stumble_eq_some {failure : Failure} (h : w.stumble ps = some failure) :
    ∃ p ∈ ps, w.tree.walk true w.here p = .error .nameTooLong ∧
      failure = .fault ⟨.nameTooLong, p.text, none⟩ := by
  induction ps with
  | nil => cases h
  | cons p ps ih =>
    rw [stumble] at h
    split at h
    · split at h
      · obtain ⟨q, hq, htoolong⟩ := ih h
        exact ⟨q, List.mem_cons_of_mem p hq, htoolong⟩
      · cases h
    · next f' hlook =>
      split at h
      · cases h
      · next hnowhere =>
        obtain rfl := Option.some.inj h
        rcases look_error hlook with hcause | htoolong
        · exact absurd hcause hnowhere
        · exact ⟨p, List.mem_cons_self, htoolong.1, congrArg Failure.fault htoolong.2⟩

/-- A test of an entry of a folder under too long a name fails. -/
theorem stumble_long {folder : Place} {name : String}
    (hwalk : w.tree.walk true w.here p = .ok folder)
    (hfolder : w.tree.get? folder = some .folder) (hlong : longestName < name.utf8ByteSize) :
    w.stumble (p.child name :: ps) = some (.fault ⟨.nameTooLong, (p.child name).text, none⟩) := by
  have hname : name ≠ ".." := by
    rintro rfl
    exact absurd hlong (by decide)
  have htoolong : w.tree.walk true w.here (p.child name) = .error .nameTooLong := by
    rw [Tree.walk]
    split
    · rfl
    · obtain ⟨left, hleft⟩ := (Tree.walk_eq_ok_iff.mp hwalk).2.front hfolder
      have hnext := hleft true [name] (by simp)
      rw [Tree.walkFrom, if_neg hname, if_pos hlong] at hnext
      exact hnext
  rw [stumble, look, onNode, htoolong]
  rfl

end World

/-! ### How tasks end -/

/-- The result is the failure that leaks. If there is none, it is a proper one or a refusal. -/
def EndsBy (leak? : Option Failure) (r : Except Failure α) : Prop :=
  match leak? with
  | some failure => r = .error failure
  | none => (∃ a, r = .ok a) ∨ ∃ refusal, r = .error (.refused refusal)

namespace Task

variable {w : World} {p : Path} {ps : List Path} {leak? : Option Failure} {task : Task α}
  {f : α → Task β}

/-- The task ends in the failure that leaks. If there is none, it gives a result or refuses. -/
def EndsBy (task : Task α) (leak? : Option Failure) (w : World) : Prop :=
  task.run.Does (fun _ => True) w fun r _ _ => ConfigSteward.EndsBy leak? r

theorem Proper.endsBy (h : task.Proper) (hw : w.Returns) : task.EndsBy none w := by
  refine ⟨fun _ _ => trivial, ?_⟩
  rcases hr : (task.run.run w).1 with failure | a
  · have hend : task.run.MayEnd .none w _ _ := task.run.mayEnd_run w
    rw [hr] at hend
    obtain ⟨refusal, rfl⟩ := h .none w hw failure _ hend
    exact .inr ⟨refusal, rfl⟩
  · exact .inl ⟨a, rfl⟩

theorem EndsBy.andThen (h : task.EndsBy leak? w) (hw : w.Returns) (hf : ∀ a, (f a).Proper) :
    (task >>= f).EndsBy leak? w := by
  have hreturns : (task.run.run w).2.Returns := by
    rw [World.Returns, passes_programs (passes_end task.run w)]
    exact hw
  refine does_andThen.mpr ⟨fun _ _ => trivial, ?_⟩
  have hends := h.ends
  generalize (task.run.run w).1 = r at hends ⊢
  rcases leak? with _ | failure
  · rcases hends with ⟨a, rfl⟩ | ⟨refusal, rfl⟩
    · exact (hf a).endsBy hreturns
    · exact ⟨trivial, .inr ⟨refusal, rfl⟩⟩
  · subst hends
    exact ⟨trivial, rfl⟩

/-- After a refusal nothing is done. -/
theorem EndsBy.refused (refusal : Refusal) : (Task.refuse refusal >>= f : Task β).EndsBy none w :=
  ⟨fun _ _ => trivial, .inr ⟨refusal, rfl⟩⟩

/-- Where no link leads back to itself, locks can always be taken. -/
theorem EndsBy.hold (hloops : w.tree.LoopFree) (h : task.EndsBy leak? w) (paths : List Path) :
    (Lock.hold paths task).EndsBy leak? w :=
  Lock.does_hold_of_resolves trivial (fun p _ => hloops.resolve w.here p) h

/-- A test of whether there is a file, and what is done once it is made. -/
theorem endsBy_isFile {f : Bool → Task α}
    (hthere : (∃ bytes, w.read p = .ok bytes) → (f true).EndsBy (w.stumble ps) w)
    (hmissing : (f false).EndsBy none w) :
    (Task.ofFile (FileTask.isFile p) >>= f).EndsBy (w.stumble (p :: ps)) w := by
  refine does_andThen.mpr (does_ofFile.mpr (FileTask.does_leads.mpr ⟨trivial, ?_⟩))
  rw [FileTask.leadsIn, World.stumble]
  rcases hlook : w.look p with fault | status
  · by_cases hcause : fault.cause.leadsNowhere = true
    · simp only [hcause, if_true]
      exact hmissing
    · simp only [hcause]
      exact ⟨trivial, rfl⟩
  · by_cases hkind : status.kind = .file
    · simp only [hkind, if_true, decide_true]
      exact hthere (World.read_of_look hlook hkind)
    · simp only [hkind, if_false, decide_false]
      exact hmissing

/-- A last test of whether there is anything. -/
theorem endsBy_exists {f : Bool → Task α} (h : ∀ there, (f there).EndsBy none w) :
    (Task.ofFile (FileTask.exists? p) >>= f).EndsBy (w.stumble [p]) w := by
  refine does_andThen.mpr (does_ofFile.mpr (FileTask.does_leads.mpr ⟨trivial, ?_⟩))
  rw [FileTask.leadsIn, World.stumble]
  rcases w.look p with fault | status
  · by_cases hcause : fault.cause.leadsNowhere = true
    · simp only [hcause, if_true]
      exact h false
    · simp only [hcause]
      exact ⟨trivial, rfl⟩
  · simp only [World.stumble, ite_self]
    exact h true

end Task

/-! ### Backups -/

namespace Store

variable {s : Store} {w : World} {name : String} {ps : List Path}

/-- The one test that finding a backup makes is where the backup is looked for. -/
theorem endsBy_find {f : Path → Task α} (hloops : w.tree.LoopFree)
    (hf : ∀ p, (∃ bytes, w.read p = .ok bytes) → (f p).EndsBy (w.stumble ps) w) :
    (s.find name >>= f).EndsBy (w.stumble (s.tested w name ps)) w := by
  rw [find, tested]
  by_cases hname : (Name.isSafe name && Name.endsIn Name.backupSuffix name) = true
  · simp only [hname, if_true]
    obtain ⟨place, hplace⟩ := hloops.resolve w.here (s.pathOf name)
    rw [LawfulMonad.bind_assoc]
    refine does_andThen.mpr (Task.does_resolve_eq trivial (fun place' hplace' => ?_) fun q hq => ?_)
    · simp only [hplace']
      by_cases hfolder : place'.dropLast = s.folder
      · simp only [hfolder, if_true, LawfulMonad.bind_assoc]
        refine Task.endsBy_isFile (fun hread => ?_) (.refused _)
        simpa using hf _ hread
      · simp only [hfolder, if_false]
        exact Task.EndsBy.refused _
    · rw [hplace] at hq
      cases hq
  · simp only [hname]
    exact .refused _

theorem endsBy_get {f : Bytes → Task α} (hloops : w.tree.LoopFree)
    (hf : ∀ bytes, (f bytes).EndsBy (w.stumble ps) w) :
    (s.get name >>= f).EndsBy (w.stumble (s.tested w name ps)) w := by
  rw [get, LawfulMonad.bind_assoc]
  refine endsBy_find hloops fun p hread => ?_
  obtain ⟨bytes, hread⟩ := hread
  refine does_andThen.mpr (Task.does_ofFileOr.mpr (FileTask.does_read.mpr ⟨trivial, ?_⟩))
  rw [hread]
  exact hf bytes

theorem endsBy_delete (hloops : w.tree.LoopFree) (hw : w.Returns) :
    (s.delete name).EndsBy (w.stumble (s.tested w name [])) w := by
  rw [delete]
  refine endsBy_find hloops fun p _ => Task.Proper.endsBy (.andThen (.attemptFile _) fun r => ?_) hw
  cases r with
  | ok => exact .pure ()
  | error f => exact .oneOf _ _

end Store

namespace Site

variable {s : Site} {w : World}

/-! ### Calls -/

/-- What escapes from a call: the fault of a test of whether there is a file, or that the content
cannot be encoded. A new file is there by then. -/
def leak (s : Site) (w : World) : Call → Option Failure
  | .saveConfig (.broken text) => some (.unencodable text)
  | .saveServer name (.broken text) => (s.serverPath name).toOption.map fun _ => .unencodable text
  | .createServer name content =>
    match s.serverPath name, newContent content with
    | .ok p, .broken text => (w.vacancy p).toOption.map fun _ => .unencodable text
    | _, _ => none
  | c => w.stumble (s.tested w c)

theorem endsBy_save (hloops : w.tree.LoopFree) (hw : w.Returns) (save : Save) :
    (save.run s.store s.controller).EndsBy none w :=
  .hold hloops ((Task.Proper.of_sure (save.sure_steps s.store s.controller)).endsBy hw) [save.path]

theorem endsBy_saveConfig (hloops : w.tree.LoopFree) (hw : w.Returns) (content : RawText) :
    (s.saveConfig content).EndsBy (s.leak w (.saveConfig content)) w := by
  cases content with
  | whole text => exact endsBy_save hloops hw (s.configSave text)
  | broken text => exact does_throw.mpr ⟨trivial, rfl⟩

theorem endsBy_saveServer (hloops : w.tree.LoopFree) (hw : w.Returns) (name : Option String)
    (content : RawText) :
    (s.saveServer name content).EndsBy (s.leak w (.saveServer name content)) w := by
  rw [saveServer, serverPathTask]
  cases content with
  | whole text =>
    rcases s.serverPath name with refusal | p
    · exact .refused refusal
    · exact endsBy_save hloops hw (s.serverSave p text)
  | broken text =>
    rw [leak]
    rcases s.serverPath name with refusal | p
    · exact .refused refusal
    · exact does_throw.mpr ⟨trivial, rfl⟩

theorem endsBy_createServer (hloops : w.tree.LoopFree) (name : Option String)
    (content : Option RawText) :
    (s.createServer name content).EndsBy (s.leak w (.createServer name content)) w := by
  refine (s.does_createServer_ends w name content).mono (fun _ _ => trivial) ?_
  rintro r v es (⟨failure, rfl, rfl, huncreated⟩ | ⟨p, place, hp, hvacancy, rfl, rfl⟩)
  · rw [leak]
    cases huncreated with
    | misnamed goes =>
      rw [goes]
      exact .inr ⟨_, rfl⟩
    | @looped p _ goes loop =>
      obtain ⟨place, hplace⟩ := hloops.resolve v.here p
      cases loop.symm.trans hplace
    | taken goes fault =>
      rw [goes]
      cases newContent content with
      | whole text => exact .inr ⟨_, rfl⟩
      | broken text => simpa only [fault] using .inr ⟨_, rfl⟩
  · rw [leak, hp]
    cases newContent content with
    | whole text => exact .inl ⟨p, rfl⟩
    | broken text => simp only [hvacancy]; rfl

theorem endsBy_createBackup (hloops : w.tree.LoopFree) (hw : w.Returns) :
    s.createBackup.EndsBy none w := by
  refine Task.EndsBy.hold hloops (Task.Proper.endsBy (.andThen (.attemptFile _) fun r => ?_) hw) _
  cases r with
  | ok content => exact .andThen (.create _ _ _) fun _ => .pure _
  | error f => exact .oneOf _ _

theorem endsBy_safetyBackup (s : Site) (hw : w.Returns) (target : Path) :
    (s.safetyBackup target).EndsBy (w.stumble [target]) w := by
  refine Task.endsBy_exists fun there => ?_
  cases there with
  | false => exact (Task.Proper.pure none).endsBy hw
  | true =>
    exact Task.Proper.endsBy (.andThen (.ofFileOr _ _) fun content =>
      .andThen (.create s.store target.name content) fun _ => .pure _) hw

theorem endsBy_renameServer (hloops : w.tree.LoopFree) (hw : w.Returns) (old new : Option String) :
    (s.renameServer old new).EndsBy (w.stumble (s.tested w (.renameServer old new))) w := by
  rw [renameServer, serverPathTask, serverPathTask, tested]
  by_cases hnew : (new = none || new = some "") = true
  · have hrefusal : ∃ refusal, s.serverPath new = .error refusal := by
      rw [Bool.or_eq_true, decide_eq_true_eq, decide_eq_true_eq] at hnew
      rcases hnew with rfl | rfl
      · exact ⟨_, rfl⟩
      · exact ⟨_, rfl⟩
    obtain ⟨refusal, hrefusal⟩ := hrefusal
    rw [if_pos hnew, hrefusal]
    cases s.serverPath old with
    | error => exact .refused _
    | ok => exact .refused _
  rw [if_neg hnew]
  rcases s.serverPath old with refusal | source
  · exact .refused refusal
  rcases s.serverPath new with refusal | target
  · exact ⟨fun _ _ => trivial, .inr ⟨refusal, rfl⟩⟩
  refine Task.EndsBy.hold hloops (Task.endsBy_isFile (fun _ => ?_) (.refused _)) [source, target]
  refine Task.endsBy_exists fun taken => ?_
  cases taken with
  | true => exact .refused _
  | false => exact Task.Proper.endsBy (.andThen (.ofFileOr _ _) fun _ => .pure _) hw

theorem endsBy_deleteServer (hloops : w.tree.LoopFree) (hw : w.Returns) (name : Option String) :
    (s.deleteServer name).EndsBy (w.stumble (s.tested w (.deleteServer name))) w := by
  rw [deleteServer, serverPathTask, tested]
  rcases s.serverPath name with refusal | p
  · exact .refused refusal
  refine Task.EndsBy.hold hloops (Task.endsBy_isFile (fun _ => ?_) (.refused _)) [p]
  refine Task.Proper.endsBy (.andThen (.of_sure (s.sure_backUpIfPossible p)) fun backup => ?_) hw
  refine .andThen (.attemptFile _) fun r => ?_
  cases r with
  | ok => exact .pure _
  | error f => exact .oneOf _ _

theorem endsBy_restoreBackup (hloops : w.tree.LoopFree) (hw : w.Returns) (name : String) :
    (s.restoreBackup name).EndsBy (w.stumble (s.tested w (.restoreBackup name))) w := by
  refine Store.endsBy_get hloops fun content => ?_
  rcases s.restoreTarget name with refusal | target
  · exact .refused refusal
  · refine Task.EndsBy.hold hloops (.andThen (endsBy_safetyBackup s hw target) hw fun backup => ?_) _
    exact .andThen (.ofFileOr _ _) fun _ => .andThen (.run _) fun result => .pure _

private theorem leak_eq_some {c : Call} {failure : Failure} (h : s.leak w c = some failure) :
    (∃ p ∈ s.tested w c, w.tree.walk true w.here p = .error .nameTooLong ∧
      failure = .fault ⟨.nameTooLong, p.text, none⟩) ∨
    ∃ text, c.broken? = some text ∧ failure = .unencodable text := by
  unfold leak at h
  split at h
  · exact .inr ⟨_, rfl, (Option.some.inj h).symm⟩
  · obtain ⟨_, -, rfl⟩ := Option.map_eq_some_iff.mp h
    exact .inr ⟨_, rfl, rfl⟩
  · split at h
    · next hcontent =>
      obtain ⟨_, -, rfl⟩ := Option.map_eq_some_iff.mp h
      exact .inr ⟨_, by rw [Call.broken?, hcontent], rfl⟩
    · cases h
  · exact .inl (World.stumble_eq_some h)

/-- A call that lists no folder gives a result or refuses, but for two leaks: a test of whether there
is a file at a path with too long a name ends it with the fault of that test, and a content that cannot
be encoded ends it too. Where more goes wrong, such as a folder that may not be searched, the tests
leak that as well, and nothing else leaks. -/
theorem refuses_but_for_leaks (hloops : w.tree.LoopFree) (hw : w.Returns) {c : Call}
    (hc : ¬ c.Lists) :
    EndsBy (s.leak w c) ((s.call c).run.run w).1 ∧
      (∀ failure, s.leak w c = some failure →
        (∃ p ∈ s.tested w c, w.tree.walk true w.here p = .error .nameTooLong ∧
          failure = .fault ⟨.nameTooLong, p.text, none⟩) ∨
        ∃ text, c.broken? = some text ∧ failure = .unencodable text) ∧
      ∀ hazard failure v, (s.call c).run.MayEnd hazard w (.error failure) v →
        Escape hazard w (s.tested w c) c.broken? failure := by
  refine ⟨?_, fun f hf => leak_eq_some hf, fun _ => escapes_call hloops hw hc⟩
  suffices hends : (s.call c).EndsBy (s.leak w c) w from hends.ends
  have answered {α : Type} {task : Task α} {leak? : Option Failure} (h : task.EndsBy leak? w)
      (f : α → Answer) : (task >>= fun a => pure (f a)).EndsBy leak? w :=
    h.andThen hw fun _ => .pure _
  cases c with
  | readConfig =>
    exact answered (Task.Proper.endsBy (.andThen (proper_readText _ _) fun _ => .pure _) hw) .config
  | saveConfig content => exact answered (endsBy_saveConfig hloops hw content) .outcome
  | testConfig => exact answered ((Task.Proper.run _).endsBy hw) .tested
  | listServers | listBackups => exact absurd trivial hc
  | readServer name =>
    exact answered (Task.Proper.endsBy (.andThen (s.proper_serverPathTask name)
      fun p => .andThen (proper_readText _ _) fun _ => .pure _) hw) .server
  | saveServer name content => exact answered (endsBy_saveServer hloops hw name content) .outcome
  | createServer name content => exact answered (endsBy_createServer hloops name content) .created
  | renameServer old new =>
    exact answered (endsBy_renameServer hloops hw old new) fun names => .renamed names.1 names.2
  | deleteServer name => exact answered (endsBy_deleteServer hloops hw name) .deleted
  | createBackup => exact answered (endsBy_createBackup hloops hw) .backup
  | readBackup name => exact Store.endsBy_get hloops fun bytes => (Task.Proper.pure _).endsBy hw
  | deleteBackup name => exact answered (Store.endsBy_delete hloops hw) fun _ => .removed
  | restoreBackup name => exact answered (endsBy_restoreBackup hloops hw name) .restored

/-- A site of empty folders whose programs always do well. -/
def staffed : World :=
  .atNoon ⟨[(["s"], .folder), (["b"], .folder)]⟩ (.ok .well)

def staffedSite : Site := ⟨⟨.one, ["n"]⟩, ⟨.one, ["s"]⟩, ⟨["b"]⟩, {}⟩

private theorem staffed_loopFree : staffed.tree.LoopFree :=
  (Tree.linkless_of_entries (by simp [staffed])).loopFree

private theorem staffed_returns : staffed.Returns := fun _ _ _ => ⟨_, rfl⟩

/-- A server file that is not there is not deleted. -/
theorem refuses_missing : staffed.tree.LoopFree ∧ staffed.Returns ∧
    ¬ (Call.deleteServer (some "x")).Lists ∧
    EndsBy none ((staffedSite.call (.deleteServer (some "x"))).run.run staffed).1 := by
  have htested : staffedSite.leak staffed (.deleteServer (some "x")) = none := by cbv
  have hends := (refuses_but_for_leaks (s := staffedSite) (c := .deleteServer (some "x"))
    staffed_loopFree staffed_returns id).1
  rw [htested] at hends
  exact ⟨staffed_loopFree, staffed_returns, id, hends⟩

def longName : String := String.ofList (List.replicate 300 'a' ++ Name.serverSuffix.toList)

private theorem safeChar_longName : ∀ x ∈ List.replicate 300 'a' ++ Name.serverSuffix.toList,
    Name.isSafeChar x = true := by
  intro x hx
  rcases List.mem_append.mp hx with hx | hx
  · rw [List.eq_of_mem_replicate hx]
    decide
  · exact List.all_eq_true.mp (by decide : Name.serverSuffix.toList.all Name.isSafeChar = true) x hx

/-- A content that cannot be encoded: half of a surrogate pair. -/
def half : RawText := .broken ⟨"", 0, []⟩

/-- Deleting a server file by too long a name fails with the fault of a file call, and making one with
a content that cannot be encoded fails with that, once the file was made. -/
theorem leaks_not_refused : staffed.tree.LoopFree ∧ staffed.Returns ∧
    ¬ (Call.deleteServer (some longName)).Lists ∧
    ¬ EndsBy none ((staffedSite.call (.deleteServer (some longName))).run.run staffed).1 ∧
    ¬ EndsBy none ((staffedSite.call (.createServer (some "x") half)).run.run staffed).1 ∧
    ((staffedSite.call (.createServer (some "x") half)).run.run staffed).2.tree.get? ["s", "x.conf"]
      = some (.file [] World.plainMode .lately) := by
  have hsize : longName.utf8ByteSize = 305 := by
    rw [longName, Name.utf8ByteSize_ofList_of_safe safeChar_longName, List.length_append,
      List.length_replicate]
    decide
  have hlength : longName.toList.length = 305 := by
    rw [longName, String.toList_ofList, List.length_append, List.length_replicate]
    decide
  have hne {name : String} (hname : name.utf8ByteSize < 305) : longName ≠ name := by
    rintro rfl
    exact absurd hsize (Nat.ne_of_lt hname)
  have hsafe : Name.Safe longName := ⟨hne (by decide), hne (by decide), hne (by decide), by
    rw [longName, String.toList_ofList]
    exact safeChar_longName⟩
  have hends : Name.endsIn Name.serverSuffix longName = true := by
    rw [Name.endsIn, longName, String.toList_ofList]
    exact List.isSuffixOf_iff_suffix.mpr (List.suffix_append _ _)
  have hmeans : staffedSite.Means (some longName) longName :=
    ⟨Name.normalizeServer_of_safe hsafe hends (by omega), hne (by decide)⟩
  have hstumbles : staffed.stumble (staffedSite.tested staffed (.deleteServer (some longName)))
      = some (.fault ⟨.nameTooLong, (staffedSite.servers.child longName).text, none⟩) := by
    have hwalk : staffed.tree.walk true staffed.here staffedSite.servers = .ok ["s"] := by cbv
    rw [tested, hmeans.serverPath_eq]
    exact World.stumble_long hwalk rfl (by rw [hsize]; decide)
  have hfails := (endsBy_deleteServer (s := staffedSite) staffed_loopFree staffed_returns
    (some longName)).andThen staffed_returns
      (f := fun name => pure (Answer.deleted name)) fun _ => .pure _
  rw [hstumbles] at hfails
  have hreply : ((staffedSite.call (.deleteServer (some longName))).run.run staffed).1
      = .error (.fault ⟨.nameTooLong, (staffedSite.servers.child longName).text, none⟩) :=
    hfails.ends
  have hhalf : ((staffedSite.call (.createServer (some "x") half)).run.run staffed).1
      = .error (.unencodable ⟨"", 0, []⟩) := by cbv
  have hleaks {failure : Failure} (hfailure : ∀ refusal, failure ≠ .refused refusal) :
      ¬ EndsBy none (.error failure : Except Failure Answer) := by
    rintro (⟨a, ⟨⟩⟩ | ⟨refusal, ⟨⟩⟩)
    exact hfailure refusal rfl
  refine ⟨staffed_loopFree, staffed_returns, id, ?_, ?_, by cbv⟩
  · rw [hreply]
    exact hleaks (by rintro refusal ⟨⟩)
  · rw [hhalf]
    exact hleaks (by rintro refusal ⟨⟩)

end Site
end ConfigSteward
