import ConfigSteward.Proofs.World.Kinds
import ConfigSteward.Site.Restore
import ConfigSteward.Site.Servers

/-!
# The operations of a site, by kind

What reads and lists is of every kind that asks about files. What is done to one file is done while
the file is held, and inside the hold it is of every kind that has files, programs and the readings
of the clock for backups.
-/
namespace ConfigSteward

open Plan

namespace Plan.Kind

variable {K : Kind}

/-- The kind has all that backups and saves are made of. -/
structure Working (K : Kind) : Prop extends Acting K where
  reading : ∀ artifact, K _ (Store.nextReading artifact).run

/-! ### Reading and listing -/

namespace Asking

variable (h : K.Asking)
include h

theorem find (s : Store) (name : String) : K _ (s.find name).run := by
  unfold Store.find
  dsimp only
  split
  · refine h.andThen (h.resolve _) fun place => ?_
    split
    · refine h.andThen (h.ofFile (h.leads _ _)) fun there => ?_
      split
      · exact h.pure _
      · exact h.refuse _
    · exact h.refuse _
  · exact h.refuse _

theorem get (s : Store) (name : String) : K _ (s.get name).run :=
  h.andThen (h.find s name) fun path => h.ofFileOr (h.asks (.read path) trivial)

theorem describe (s : Store) (wanted : Option String) (name : String) :
    K _ (s.describe wanted name).run := by
  unfold Store.describe
  split
  · refine h.andThen (h.ofFile (h.leads _ _)) fun there => ?_
    split
    · refine h.andThen (h.ofFile (h.asks (.look _) trivial)) fun status => ?_
      rcases Store.ownerAndTime name status.changed with f | ⟨owner, created⟩
      · exact h.throw _
      · exact h.pure _
    · exact h.pure _
  · exact h.pure _

theorem describeAll (s : Store) (wanted : Option String) (names : List String) :
    K _ (s.describeAll wanted names).run := by
  induction names with
  | nil => exact h.pure _
  | cons name names ih =>
    rw [Store.describeAll]
    refine h.andThen (h.describe s wanted name) fun b => ?_
    cases b with
    | none => exact ih
    | some b => exact h.andThen ih fun _ => h.pure _

theorem listBackups (s : Store) (wanted : Option String) : K _ (s.list wanted).run :=
  h.andThen (h.ofFileOr (h.asks (.list _) trivial)) fun names =>
    h.andThen (h.describeAll s wanted names) fun _ => h.pure _

theorem readText (p : Path) (label : String) : K _ (Site.readText p label).run := by
  unfold Site.readText
  refine h.andThen (h.lift (h.asks (.read p) trivial)) fun r => ?_
  cases r with
  | ok bytes => exact h.pure _
  | error f =>
    dsimp only
    split
    · exact h.refuse _
    · exact h.refuse _

theorem serverPathTask (s : Site) (name : Option String) : K _ (s.serverPathTask name).run := by
  unfold Site.serverPathTask
  split
  · exact h.pure _
  · exact h.refuse _

theorem describeServer (s : Site) (name : String) : K _ (s.describeServer name).run := by
  unfold Site.describeServer
  dsimp only
  split
  · refine h.andThen (h.ofFile (h.leads _ _)) fun there => ?_
    split
    · exact h.andThen (h.ofFile (h.asks (.look _) trivial)) fun _ => h.pure _
    · exact h.pure _
  · exact h.pure _

theorem describeServers (s : Site) (names : List String) : K _ (s.describeServers names).run := by
  induction names with
  | nil => exact h.pure _
  | cons name names ih =>
    rw [Site.describeServers]
    refine h.andThen (h.describeServer s name) fun entry => ?_
    cases entry with
    | none => exact ih
    | some entry => exact h.andThen ih fun _ => h.pure _

theorem listServers (s : Site) : K _ s.listServers.run :=
  h.andThen (h.ofFileOr (h.asks (.list _) trivial)) fun _ => h.describeServers s _

theorem readServer (s : Site) (name : Option String) : K _ (s.readServer name).run :=
  h.andThen (h.serverPathTask s name) fun _ => h.andThen (h.readText _ _) fun _ => h.pure _

end Asking

/-! ### Backups and saves -/

namespace Composes

variable (h : K.Composes)
include h

/-- Looking for a free counter makes files under the names of backups alone. -/
theorem createFrom {s : Store} {artifact : String} {content : Bytes} {reading : Civil}
    {counter tries : Nat}
    (hmake : ∀ k, k < counter + tries →
      K _ (FileTask.createWith (s.pathOf (Name.writeBackup artifact reading k)) content).run) :
    K _ (s.createFrom artifact content reading counter tries).run := by
  induction tries generalizing counter with
  | zero => exact h.refuse _
  | succ tries ih =>
    refine h.andThen (h.lift (hmake counter (by omega))) fun r => ?_
    cases r with
    | ok _ => exact h.pure _
    | error f =>
      dsimp only
      split
      · exact ih fun k hk => hmake k (by omega)
      · exact h.refuse _

theorem resultOf {task : Task CommandResult} (htask : K _ task.run) :
    K _ (Save.resultOf task).run := by
  refine h.andThen (h.lift htask) fun r => ?_
  cases r <;> exact h.pure _

theorem priorContent {p : Path} (hread : K _ (request (.read p))) :
    K _ (Save.priorContent p).run := by
  refine h.andThen (h.lift hread) fun r => ?_
  cases r with
  | ok _ => exact h.pure _
  | error f =>
    dsimp only
    split
    · exact h.pure _
    · exact h.throw f

theorem putBack {p : Path} (hunlink : K _ (request (.unlink p)))
    (hreplace : ∀ bytes, K _ (FileTask.replace p bytes).run) (prior : Option Bytes) :
    K _ (Save.putBack p prior).run := by
  cases prior with
  | none =>
    refine h.andThen (h.lift hunlink) fun r => ?_
    cases r with
    | ok _ => exact h.pure _
    | error f =>
      dsimp only
      split
      · exact h.pure _
      · exact h.throw f
  | some bytes => exact hreplace bytes

section
variable {s : Save} {c : Controller} (hrun : ∀ args, K _ (request (.run args)))
include hrun

theorem reloadStep (o : Outcome) : K _ (s.reloadStep c o).run := by
  unfold Save.reloadStep
  split
  · refine h.andThen (h.resultOf (hrun _)) fun result => ?_
    dsimp only
    repeat' split
    all_goals exact h.pure _
  · exact h.pure _

variable (hunlink : K _ (request (.unlink s.path)))
  (hreplace : ∀ bytes, K _ (FileTask.replace s.path bytes).run)
include hunlink hreplace

theorem checkStep (prior : Option Bytes) (o : Outcome) : K _ (s.checkStep c prior o).run := by
  have hrollBack (o : Outcome) : K _ (s.rollBack prior o).run := by
    refine h.andThen (h.lift (h.putBack hunlink hreplace prior)) fun r => ?_
    cases r <;> exact h.pure _
  refine h.andThen (h.resultOf (hrun _)) fun result => ?_
  dsimp only
  split
  · exact h.reloadStep hrun _
  · split <;> exact hrollBack _

theorem writeStep (prior : Option Bytes) (o : Outcome) : K _ (s.writeStep c prior o).run := by
  refine h.andThen (h.lift (hreplace s.content)) fun r => ?_
  cases r with
  | ok _ => exact h.checkStep hrun hunlink hreplace prior _
  | error f => exact h.pure _

/-- A save reads, backs up and replaces its file, and runs programs. -/
theorem saveSteps {store : Store} (hread : K _ (request (.read s.path)))
    (hcreate : ∀ content, K _ (store.create s.artifact content).run) :
    K _ (s.steps store c).run := by
  refine h.andThen (h.lift (h.priorContent hread)) fun r => ?_
  cases r with
  | error f => exact h.pure _
  | ok prior =>
    refine h.andThen (h.lift (hcreate _)) fun r => ?_
    rcases r with failure | backup
    · cases failure <;> first | exact h.pure _ | exact h.throw _
    · exact h.writeStep hrun hunlink hreplace prior _

end

section
variable {s : Site} {p : Path} (hread : K _ (request (.read p)))
  (hcreate : ∀ content, K _ (s.store.create p.name content).run)
include hread hcreate

theorem backUpIfPossible : K _ (s.backUpIfPossible p).run := by
  refine h.andThen (h.lift hread) fun r => ?_
  cases r with
  | error f => exact h.pure _
  | ok content =>
    refine h.andThen (h.lift (hcreate content)) fun r => ?_
    rcases r with failure | backup
    · cases failure <;> first | exact h.pure _ | exact h.throw _
    · exact h.pure _

theorem safetyBackup (hlook : K _ (request (.look p))) : K _ (s.safetyBackup p).run := by
  refine h.andThen (h.ofFile (h.leads hlook _)) fun there => ?_
  split
  · refine h.andThen (h.ofFileOr hread) fun content => ?_
    exact h.andThen (hcreate content) fun _ => h.pure _
  · exact h.pure _

end
end Composes

namespace Acting

variable (h : K.Acting)
include h

theorem deleteBackup (s : Store) (name : String) : K _ (s.delete name).run := by
  refine h.andThen (h.asking.find s name) fun path => ?_
  refine h.andThen (h.lift (h.acts (.unlink path) trivial)) fun r => ?_
  cases r with
  | ok _ => exact h.pure _
  | error f =>
    dsimp only
    split
    · exact h.refuse _
    · exact h.refuse _

theorem createFrom (s : Store) (artifact : String) (content : Bytes) (reading : Civil)
    (counter tries : Nat) : K _ (s.createFrom artifact content reading counter tries).run :=
  h.toComposes.createFrom fun _ _ => h.createWith _ content

theorem writeNew (p : Path) (content : RawText) : K _ (Site.writeNew p content).run := by
  cases content with
  | whole text => exact h.createWith p _
  | broken text => exact h.acts (.create p) trivial

end Acting

namespace Working

variable (h : K.Working)
include h

theorem create (s : Store) (artifact : String) (content : Bytes) :
    K _ (s.create artifact content).run := by
  unfold Store.create
  split
  · exact h.andThen (h.reading artifact) fun reading =>
      h.createFrom s artifact content reading 0 _
  · exact h.refuse _

theorem saveSteps (s : Save) (store : Store) (c : Controller) : K _ (s.steps store c).run :=
  h.toComposes.saveSteps (fun args => h.acts (.run args) trivial) (h.acts (.unlink s.path) trivial)
    (h.replace s.path) (h.acts (.read s.path) trivial) (h.create store s.artifact)

theorem backUpIfPossible (s : Site) (p : Path) : K _ (s.backUpIfPossible p).run :=
  h.toComposes.backUpIfPossible (h.acts (.read p) trivial) (h.create s.store p.name)

theorem safetyBackup (s : Site) (p : Path) : K _ (s.safetyBackup p).run :=
  h.toComposes.safetyBackup (h.acts (.read p) trivial) (h.create s.store p.name)
    (h.acts (.look p) trivial)

end Working
end Plan.Kind

/-! ### What is done while a file is held -/

namespace Site

variable {s : Site} {p : Path}

/-- Of every kind that has what work on files is made of. -/
def Working {α : Type} (task : Task α) : Prop := ∀ K : Plan.Kind, K.Working → K _ task.run

theorem createBackup_eq_hold (s : Site) :
    ∃ task, Working task ∧ s.createBackup = Lock.hold [s.config] task := by
  refine ⟨_, fun K h => h.andThen (h.lift (h.acts (.read s.config) trivial)) fun r => ?_, rfl⟩
  cases r with
  | ok content => exact h.andThen (h.create s.store _ _) fun _ => h.pure _
  | error f =>
    dsimp only
    split
    · exact h.refuse _
    · exact h.refuse _

theorem createServer_eq_hold {name : Option String} (content : Option RawText)
    (hp : s.serverPath name = .ok p) :
    ∃ task, Working task ∧ s.createServer name content = Lock.hold [p] task := by
  apply Exists.intro
  apply And.intro
  rotate_left
  · simp only [createServer, serverPathTask, hp, pure_bind]
    rfl
  refine fun K h => h.andThen (h.lift (h.writeNew p _)) fun r => ?_
  cases r with
  | ok _ =>
    cases newContent content with
    | whole _ => exact h.pure _
    | broken text => exact h.done _
  | error f =>
    dsimp only
    split
    · exact h.refuse _
    · exact h.refuse _

theorem deleteServer_eq_hold {name : Option String} (hp : s.serverPath name = .ok p) :
    ∃ task, Working task ∧ s.deleteServer name = Lock.hold [p] task := by
  apply Exists.intro
  apply And.intro
  rotate_left
  · simp only [deleteServer, serverPathTask, hp, pure_bind]
    rfl
  refine fun K h => h.andThen (h.ofFile (h.asking.leads p _)) fun there => ?_
  cases there with
  | false => exact h.done _
  | true =>
    refine h.andThen (h.backUpIfPossible s p) fun backup => ?_
    refine h.andThen (h.lift (h.acts (.unlink p) trivial)) fun r => ?_
    cases r with
    | ok _ => exact h.pure _
    | error f =>
      dsimp only
      split
      · exact h.refuse _
      · exact h.refuse _

end Site
end ConfigSteward
