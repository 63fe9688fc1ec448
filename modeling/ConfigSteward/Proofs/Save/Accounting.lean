import Mathlib
import ConfigSteward.Proofs.Backup.Keeping
import ConfigSteward.Proofs.Save.Hindered
import ConfigSteward.Proofs.Save.Telling
import ConfigSteward.Proofs.World.Noon

/-!
# The flags of an outcome

Whatever fails in a save, and wherever, each flag of its outcome is set exactly if the step that it
stands for was done, and the file and the backup are as the flags say.
-/
namespace ConfigSteward

open World

namespace Mark

/-- The marks left before the first program is run. -/
def beforeRuns (marks : List Mark) : List Mark := marks.takeWhile fun mark => !mark.isRun

/-- The marks left from the first run of a program on. -/
def fromRuns (marks : List Mark) : List Mark := marks.dropWhile fun mark => !mark.isRun

end Mark

/-- The store made a backup under a name: its file was filled in full. -/
def Store.Made (store : Store) (marks : List Mark) (name : String) : Prop :=
  Name.endsIn Name.backupSuffix name = true ∧ ∃ content, .filled (store.pathOf name) content ∈ marks

namespace Save

/-- The new content was put in place. -/
def Wrote (s : Save) (marks : List Mark) : Prop :=
  ∃ temp, .filled temp s.content ∈ Mark.beforeRuns marks ∧
    .moved temp s.path ∈ Mark.beforeRuns marks

/-- After a check the file was replaced once more or taken away. -/
def PutBack (s : Save) (marks : List Mark) : Prop :=
  .unlinked s.path ∈ Mark.fromRuns marks ∨ ∃ temp, .moved temp s.path ∈ Mark.fromRuns marks

/-- What the path ends at, also once the missing folders above it are made, does not lie in the
store's folder; and if it is a link, the ways to it and to the store do not go through it. -/
structure Settable (store : Store) (w : World) (p : Path) : Prop where
  outside : ∀ u q, w.Dug p.parent u → u.tree.walk false u.here p = .ok q → store.Outside u q
  past : ∀ u q target, w.Dug p.parent u → u.tree.walk false u.here p = .ok q →
    u.tree.get? q = some (.link target) →
      u.StandsWithout q p.parent ∧ u.StandsWithout q store.folder.path

end Save

/-- What the flags of an outcome say is so of what the save did and of the world that it leaves. -/
structure Outcome.Accounts (o : Outcome) (s : Save) (store : Store) (c : Controller) (w v : World)
    (marks : List Mark) : Prop where
  created : o.backupCreated = o.backup.isSome
  backup : ∀ name, o.backup = some name ↔ store.Made marks name
  backedUp : ∀ name, o.backup = some name →
    Save.BackedUp store w v name ((held w s.path).getD [])
  applied : o.applied = true ↔ s.Wrote marks ∧ ¬ s.PutBack marks
  live : o.applied = true → v.read s.path = .ok s.content
  rolledBack : o.rolledBack = true ↔ s.PutBack marks
  restored : o.rolledBack = true →
    (∃ prior, Save.Prior w s.path prior ∧ Save.Prior v s.path prior) ∧ o.validated = false ∧
      ∀ reply, .ran c.reloadArgs reply ∉ marks
  validated : o.validated = true ↔
    ∃ result, .ran (s.checkArgs c) (.ok result) ∈ marks ∧ result.exitOk = true
  reloadAttempted : o.reloadAttempted = true ↔ ∃ reply, .ran c.reloadArgs reply ∈ marks
  reloadWanted : o.reloadAttempted = true → o.validated = true ∧ s.reload = true
  reloaded : o.reloaded = true ↔
    ∃ result, .ran c.reloadArgs (.ok result) ∈ marks ∧ result.exitOk = true
  success : o.success = true ↔ o.backupCreated = true ∧ o.applied = true ∧ o.validated = true ∧
    (s.reload = true → o.reloaded = true)

namespace Save

variable {s : Save} {store : Store} {c : Controller} {w u v x : World} {prior : Option Bytes}
  {name : String} {place goal : Place} {mode : Nat} {temp p : Path} {o : Outcome}
  {marks : List Mark} {bytes content : Bytes}

/-! ### Files where they were put -/

private theorem tempIn_skeleton {r : Place} {n : Nat}
    (vacant : x.tree.get? (r ++ [tempName p.name n]) = none) (q : Place) :
    (FileTask.tempIn x p r n content mode).tree.skeleton q = x.tree.skeleton q :=
  have hset := Tree.put_sets (t := x.tree) (Tree.ne_nil_of_leaf (Tree.skeleton_of_vacant vacant)) _
  hset.skeleton_eq (Tree.skeleton_of_vacant vacant) (Tree.skeleton_of_file hset.self) q

private theorem get?_tempIn_of_some {r : Place} {n : Nat} {node : Node}
    (vacant : x.tree.get? (r ++ [tempName p.name n]) = none) {q : Place}
    (hq : x.tree.get? q = some node) :
    (FileTask.tempIn x p r n content mode).tree.get? q = some node := by
  have hne : q ≠ r ++ [tempName p.name n] := by
    rintro rfl
    rw [vacant] at hq
    cases hq
  exact ((Tree.put_sets (Tree.ne_nil_of_leaf (Tree.skeleton_of_vacant vacant)) _).other hne).trans hq

/-- The way to the new content and the way to the backup do not go through the end of the path. -/
theorem Settable.puts_past (hp : Settable store w s.path) (hw : w.Sound)
    (puts : s.Puts store w prior name place u goal) :
    goal ≠ place ∧ u.StandsWithout goal s.path.parent ∧
      u.StandsWithout goal store.folder.path := by
  have hbackup := (puts.backs.dug puts.dug).2
  obtain ⟨t, hdug, hwalk, hsame, hother⟩ := puts.without_backup
  obtain ⟨folder, hfolder, -, hplace⟩ := puts.backs.slot.split hw
  have hne : goal ≠ place := by
    rintro rfl
    refine hp.outside _ goal hdug hwalk folder (Tree.walk_mono hdug.below hfolder) ?_
    rw [hplace, List.dropLast_concat]
  refine ⟨hne, ?_⟩
  rcases hgoal : u.tree.skeleton goal with _ | _ | _ | target
  · have hstands := World.Lands.stands_parent ⟨puts.walk, hgoal⟩ (puts.sound hw)
    have hstore := hbackup.stands_parent (puts.sound hw)
    rw [Store.pathOf, Path.parent_child] at hstore
    exact ⟨hstands.without hgoal, hstore.without hgoal⟩
  · exact absurd hgoal Tree.skeleton_ne_file
  · exact absurd (Tree.skeleton_eq_folder_iff.mp hgoal) puts.noFolder
  · rw [Tree.skeleton_eq_link_iff] at hgoal
    have hlink : t.get? goal = some (.link target) := (hother goal hne).symm.trans hgoal
    have hnil : goal ≠ [] := by
      rintro rfl
      simp at hgoal
    obtain ⟨hparent, hstore⟩ := hp.past _ goal target hdug hwalk hlink
    have hhere := puts.dug.here_eq
    exact ⟨hparent.of_skeleton hnil hsame hhere, hstore.of_skeleton hnil hsame hhere⟩

section
variable (hp : Settable store w s.path) (hw : w.Sound)
  (puts : s.Puts store w prior name place u goal)
include hp hw puts

/-- The new content is found where it was put. -/
theorem puts_lands (mode : Nat) : (s.written u goal mode).Lands s.path goal :=
  (hp.puts_past hw puts).2.1.lands_put (puts.sound hw) puts.walk puts.noFolder s.content mode
    .lately

/-- The backup is found, whatever takes the place of the file. -/
theorem puts_backedUp (hhere : v.here = u.here)
    (hsame : ∀ q, q ≠ goal → v.tree.get? q = u.tree.get? q) :
    BackedUp store w v name (prior.getD []) := by
  obtain ⟨hne, -, hstore⟩ := hp.puts_past hw puts
  obtain ⟨hfile, hlands⟩ := puts.backs.dug puts.dug
  have hplace := (hsame place (Ne.symm hne)).trans hfile
  obtain ⟨hgoal, -⟩ := World.put_sound (puts.sound hw) puts.walk puts.noFolder [] 0 .lately
  refine ⟨place, ⟨?_, Tree.skeleton_of_file hplace⟩, puts.backs.slot.vacant, hplace⟩
  rw [← Path.parent_child store.folder.path name] at hstore
  rw [hhere]
  exact hstore.walk (puts.sound hw) hgoal hlands.walk (by simp [hfile]) hsame

/-- A save that keeps the new content. -/
theorem puts_kept (hv : (s.written u goal mode).Alike v) :
    v.read s.path = .ok s.content ∧ BackedUp store w v name (prior.getD []) := by
  have hlands := puts_lands hp hw puts mode
  have hset := Tree.put_sets (t := u.tree) hlands.ne_nil (.file s.content mode .lately)
  refine ⟨(hv.read_eq s.path).trans (hlands.read_file hset.self), ?_⟩
  refine puts_backedUp hp hw puts hv.2 fun q hq => ?_
  rw [hv.1]
  exact hset.other hq

end

/-- A temporary file beside it leaves a backup alone. -/
theorem BackedUp.tempIn {r : Place} {n : Nat} (h : BackedUp store w x name bytes)
    (vacant : x.tree.get? (r ++ [tempName p.name n]) = none) :
    BackedUp store w (FileTask.tempIn x p r n content mode) name bytes := by
  obtain ⟨place, hlands, hnew, hfile⟩ := h
  exact ⟨place, hlands.of_skeleton (tempIn_skeleton vacant) rfl, hnew,
    get?_tempIn_of_some vacant hfile⟩

/-- The prior content is found where it was put back. -/
theorem prior_putBack (hlands : x.Lands p goal) (mode : Nat) (prior : Option Bytes) :
    Prior { x with tree := x.tree.putBack goal mode prior } p prior := by
  have hset := Tree.putBack_sets (t := x.tree) hlands.ne_nil mode prior
  have hleaf : (x.tree.putBack goal mode prior).skeleton goal = none := by
    cases prior with
    | none => exact Tree.skeleton_of_vacant hset.self
    | some bytes => exact Tree.skeleton_of_file hset.self
  have hlands' : World.Lands { x with tree := x.tree.putBack goal mode prior } p goal :=
    hlands.of_skeleton (hset.skeleton_eq hlands.leaf hleaf) rfl
  cases prior with
  | none => exact ⟨_, hlands'.read_vacant hset.self, rfl⟩
  | some bytes => exact hlands'.read_file hset.self

/-! ### Marks -/

private theorem not_isRun_of_hidden {base : String} {mark : Mark} (h : mark.Hidden base) :
    mark.isRun = false := by
  cases mark <;> first | rfl | exact h.elim

private theorem not_hidden_unlinked (p : Path) : ¬ Mark.Hidden p.name (.unlinked p) := by
  rintro ⟨folder, n, hp⟩
  have hname := congrArg Path.name hp
  rw [Path.name_child] at hname
  exact tempName_ne p.name n hname

/-- A temporary file is no backup. -/
theorem not_hidden_backup {base : String} (hname : Name.endsIn Name.backupSuffix name = true) :
    ¬ Mark.Hidden base (.filled (store.pathOf name) content) := by
  rintro ⟨folder, n, hp⟩
  have htemp := congrArg Path.name hp
  rw [Store.pathOf, Path.name_child, Path.name_child] at htemp
  exact not_telling_tempName base n (.inr (htemp ▸ hname))

/-- The backup that was made is the only one. -/
theorem made_iff (hname : Name.endsIn Name.backupSuffix name = true)
    (hrest : ∀ name' content, Name.endsIn Name.backupSuffix name' = true →
      Mark.filled (store.pathOf name') content ∉ marks) (name' : String) :
    store.Made (.filled (store.pathOf name) bytes :: marks) name' ↔ name = name' := by
  constructor
  · rintro ⟨hname', content, hmem⟩
    rcases List.mem_cons.mp hmem with heq | hmem
    · have hpath := congrArg Path.name (Mark.filled.inj heq).1
      rw [Store.pathOf, Store.pathOf, Path.name_child, Path.name_child] at hpath
      exact hpath.symm
    · exact absurd hmem (hrest name' content hname')
  · rintro rfl
    exact ⟨hname, bytes, List.mem_cons_self⟩

section
variable (s store prior name temp) (args : List String) (reply : Except Failure CommandResult)

private theorem beforeRuns_putMarks :
    Mark.beforeRuns (s.putMarks store prior name temp ++ .ran args reply :: marks)
      = s.putMarks store prior name temp := rfl

private theorem fromRuns_putMarks :
    Mark.fromRuns (s.putMarks store prior name temp ++ .ran args reply :: marks)
      = .ran args reply :: marks := rfl

private theorem wrote_putMarks :
    s.Wrote (s.putMarks store prior name temp ++ .ran args reply :: marks) :=
  ⟨temp, by rw [beforeRuns_putMarks]; simp [putMarks], by rw [beforeRuns_putMarks]; simp [putMarks]⟩

private theorem putBack_putMarks_iff :
    s.PutBack (s.putMarks store prior name temp ++ .ran args reply :: marks) ↔
      .unlinked s.path ∈ marks ∨ ∃ temp, .moved temp s.path ∈ marks := by
  simp [PutBack, fromRuns_putMarks]

private theorem ran_mem_putMarks_iff {args' : List String} {reply' : Except Failure CommandResult} :
    .ran args' reply' ∈ s.putMarks store prior name temp ++ .ran args reply :: marks ↔
      (args' = args ∧ reply' = reply) ∨ .ran args' reply' ∈ marks := by
  simp [putMarks]

private theorem reload_mem_putMarks_iff {reply' : Except Failure CommandResult} :
    .ran c.reloadArgs reply' ∈ s.putMarks store prior name temp ++ .ran (s.checkArgs c) reply :: marks
      ↔ .ran c.reloadArgs reply' ∈ marks := by
  rw [ran_mem_putMarks_iff]
  exact or_iff_right fun h => checkArgs_ne_reloadArgs s c h.1.symm

end

/-- What is made known by the marks of temporary files only: nothing. -/
theorem not_putBack_of_hidden (hidden : ∀ mark ∈ marks, mark.Hidden s.path.name) :
    ¬ (.unlinked s.path ∈ marks ∨ ∃ temp, .moved temp s.path ∈ marks) := by
  rintro (hmem | ⟨temp, hmem⟩)
  · exact not_hidden_unlinked s.path (hidden _ hmem)
  · exact hidden _ hmem

theorem BackMarks.putBack (h : BackMarks s.path prior marks) :
    .unlinked s.path ∈ marks ∨ ∃ temp, .moved temp s.path ∈ marks := by
  cases prior with
  | none => exact .inl (by simp [show marks = _ from h])
  | some bytes =>
    obtain ⟨temp, -, rfl⟩ := h
    exact .inr ⟨temp, by simp⟩

/-- Work on temporary files and on the file itself. -/
theorem BackMarks.cases (h : BackMarks p prior marks) {mark : Mark} (hmem : mark ∈ marks) :
    mark.Hidden p.name ∨ mark = .unlinked p ∨ ∃ temp, mark = .moved temp p := by
  cases prior with
  | none =>
    rw [show marks = _ from h, List.mem_singleton] at hmem
    exact .inr (.inl hmem)
  | some bytes =>
    obtain ⟨temp, hhidden, rfl⟩ := h
    rcases List.mem_pair.mp hmem with rfl | rfl
    · exact .inl hhidden
    · exact .inr (.inr ⟨temp, rfl⟩)

private theorem seen_exitOk_iff {reply : Except Failure CommandResult} :
    (CommandResult.seen reply).exitOk = true ↔
      ∃ result, reply = .ok result ∧ result.exitOk = true := by
  cases reply <;> simp [CommandResult.seen, CommandResult.failed]

private theorem made_putMarks_iff (puts : s.Puts store w prior name place u goal)
    (hidden : Mark.Hidden s.path.name (.filled temp s.content)) {args : List String}
    {reply : Except Failure CommandResult}
    (hmarks : ∀ bytes p, .filled p bytes ∈ marks → Mark.Hidden s.path.name (.filled p bytes))
    (name' : String) :
    store.Made (s.putMarks store prior name temp ++ .ran args reply :: marks) name' ↔
      name = name' := by
  refine made_iff puts.backs.slot.endsIn (fun name' content hname hmem => ?_) name'
  simp only [List.append_eq, List.cons_append, List.nil_append, List.mem_cons, reduceCtorEq,
    false_or] at hmem
  rcases hmem with heq | hmem
  · exact not_hidden_backup hname (heq ▸ hidden)
  · exact not_hidden_backup hname (hmarks _ _ hmem)

/-- An outcome without a backup, after nothing was done. -/
theorem accounts_unbacked (message : Option String) :
    Outcome.Accounts { artifact := s.artifact, error := some .backupFailed, message := message }
      s store c w v [] where
  created := rfl
  backup := by simp [Store.Made]
  backedUp := nofun
  applied := by simp [Wrote, Mark.beforeRuns]
  live := nofun
  rolledBack := by simp [PutBack, Mark.fromRuns]
  restored := nofun
  validated := by simp
  reloadAttempted := by simp
  reloadWanted := nofun
  reloaded := by simp
  success := by simp [Outcome.success]

/-- An outcome after a backup, when the content could not be put in place. -/
theorem accounts_unwritten (message : Option String) (backs : s.Backs store w prior name place)
    (hidden : ∀ mark ∈ marks, mark.Hidden s.path.name)
    (littered : (s.stored w prior place).Littered s.path v) :
    Outcome.Accounts { s.backedUp name with error := some .writeFailed, message := message }
      s store c w v (.filled (store.pathOf name) (prior.getD []) :: marks) := by
  have hfrom : Mark.fromRuns (.filled (store.pathOf name) (prior.getD []) :: marks) = [] := by
    refine List.dropWhile_eq_nil_iff.mpr fun mark hmem => ?_
    rcases List.mem_cons.mp hmem with rfl | hmem
    · rfl
    · rw [not_isRun_of_hidden (hidden mark hmem)]
      rfl
  have hwrote : ¬ s.Wrote (.filled (store.pathOf name) (prior.getD []) :: marks) := by
    rintro ⟨temp, -, hmoved⟩
    rcases List.mem_cons.mp ((List.takeWhile_prefix _).subset hmoved) with heq | hmem
    · cases heq
    · exact hidden _ hmem
  have hran (args : List String) (reply : Except Failure CommandResult) :
      Mark.ran args reply ∉ .filled (store.pathOf name) (prior.getD []) :: marks := by
    intro hmem
    rcases List.mem_cons.mp hmem with heq | hmem
    · cases heq
    · exact hidden _ hmem
  refine ⟨rfl, fun name' => ?_, ?_, ?_, nofun, ?_, nofun, ?_, ?_, nofun, ?_, ?_⟩
  · rw [made_iff backs.slot.endsIn fun name' content hname hmem =>
      not_hidden_backup hname (hidden _ hmem)]
    simp
  · rintro name' ⟨⟩
    rw [backs.prior.held_eq]
    obtain ⟨u, hdug, rfl | ⟨r, n, content, mode, vacant, rfl⟩⟩ := littered
    · obtain ⟨hfile, hlands⟩ := backs.dug hdug
      exact ⟨place, hlands, backs.slot.vacant, hfile⟩
    · obtain ⟨hfile, hlands⟩ := backs.dug hdug
      exact BackedUp.tempIn ⟨place, hlands, backs.slot.vacant, hfile⟩ vacant
  · simp [hwrote]
  · simp [PutBack, hfrom]
  · simp [hran]
  · simp [hran]
  · simp [hran]
  · simp [Outcome.success]

/-- An outcome after the content was put in place and checked. -/
theorem accounts_of_puts {reply : Except Failure CommandResult}
    (puts : s.Puts store w prior name place u goal)
    (hidden : Mark.Hidden s.path.name (.filled temp s.content))
    (hfilled : ∀ bytes p, .filled p bytes ∈ marks → Mark.Hidden s.path.name (.filled p bytes))
    (hran : ∀ args reply, .ran args reply ∈ marks → args = c.reloadArgs)
    (hbackup : o.backup = some name) (hcreated : o.backupCreated = true)
    (hbacked : BackedUp store w v name (prior.getD [])) (happlied : o.applied = !o.rolledBack)
    (hlive : o.applied = true → v.read s.path = .ok s.content)
    (hrolled : o.rolledBack = true ↔
      .unlinked s.path ∈ marks ∨ ∃ temp, .moved temp s.path ∈ marks)
    (hrestored : o.rolledBack = true →
      Prior v s.path prior ∧ o.validated = false ∧ o.reloadAttempted = false)
    (hvalidated : o.validated = true ↔ ∃ result, reply = .ok result ∧ result.exitOk = true)
    (hattempted : o.reloadAttempted = true ↔ ∃ reply, .ran c.reloadArgs reply ∈ marks)
    (hwanted : o.reloadAttempted = true → o.validated = true ∧ s.reload = true)
    (hreloaded : o.reloaded = true ↔
      ∃ result, .ran c.reloadArgs (.ok result) ∈ marks ∧ result.exitOk = true)
    (hsuccess : o.success = true ↔
      o.rolledBack = false ∧ o.validated = true ∧ (s.reload = true → o.reloaded = true)) :
    o.Accounts s store c w v
      (s.putMarks store prior name temp ++ .ran (s.checkArgs c) reply :: marks) where
  created := by rw [hcreated, hbackup]; rfl
  backup name' := by
    rw [made_putMarks_iff puts hidden hfilled, hbackup, Option.some.injEq]
  backedUp name' hname' := by
    rw [hbackup, Option.some.injEq] at hname'
    subst hname'
    rwa [puts.backs.prior.held_eq]
  applied := by
    rw [putBack_putMarks_iff, ← hrolled, happlied, and_iff_right (wrote_putMarks ..)]
    simp
  live := hlive
  rolledBack := by rw [putBack_putMarks_iff, hrolled]
  restored hback := by
    obtain ⟨hprior, hfailed, hnot⟩ := hrestored hback
    refine ⟨⟨prior, puts.backs.prior, hprior⟩, hfailed, fun reply' hmem => ?_⟩
    rw [hattempted.mpr ⟨reply', (reload_mem_putMarks_iff ..).mp hmem⟩] at hnot
    cases hnot
  validated := by
    rw [hvalidated]
    refine exists_congr fun result => and_congr_left fun _ => ?_
    rw [ran_mem_putMarks_iff]
    constructor
    · rintro rfl
      exact .inl ⟨rfl, rfl⟩
    · rintro (⟨-, rfl⟩ | hmem)
      · rfl
      · exact absurd (hran _ _ hmem) (checkArgs_ne_reloadArgs s c)
  reloadAttempted := by simp only [hattempted, reload_mem_putMarks_iff]
  reloadWanted := hwanted
  reloaded := by simp only [hreloaded, reload_mem_putMarks_iff]
  success := by
    rw [hsuccess, and_iff_right hcreated, happlied]
    simp

section
variable (hp : Settable store w s.path) (hw : w.Sound)
  (puts : s.Puts store w prior name place u goal)
  (hidden : Mark.Hidden s.path.name (.filled temp s.content))
include hp hw puts hidden

private theorem accounts_rejected {m : Nat} {reply : Except Failure CommandResult} {result : CommandResult}
    (hx : (s.written u goal mode).Alike x) (hresult : CommandResult.seen reply = result)
    (bad : result.exitOk = false) (back : BackMarks s.path prior marks) :
    (s.rejected name result).Accounts s store c w
      { x with tree := x.tree.putBack goal m prior }
      (s.putMarks store prior name temp ++ .ran (s.checkArgs c) reply :: marks) := by
  have hlands : x.Lands s.path goal := hx.lands (puts_lands hp hw puts mode)
  have hran (args : List String) (reply : Except Failure CommandResult) :
      Mark.ran args reply ∉ marks := by
    intro hmem
    rcases back.cases hmem with h | h | ⟨temp, h⟩
    · exact h
    · cases h
    · cases h
  have hset := Tree.putBack_sets (t := x.tree) hlands.ne_nil m prior
  refine accounts_of_puts puts hidden (fun bytes p hmem => ?_)
    (fun args reply hmem => absurd hmem (hran args reply)) rfl rfl ?_ rfl nofun ?_ ?_ ?_ ?_ nofun ?_ ?_
  · rcases back.cases hmem with h | h | ⟨temp, h⟩
    · exact h
    · cases h
    · cases h
  · refine puts_backedUp hp hw puts hx.2 fun q hq => (hset.other hq).trans ?_
    rw [hx.1]
    exact (Tree.put_sets hlands.ne_nil _).other hq
  · exact iff_of_true rfl back.putBack
  · exact fun _ => ⟨prior_putBack hlands m prior, rfl, rfl⟩
  · rw [← seen_exitOk_iff, hresult, bad]
    simp
  · simp [hran]
  · simp [hran]
  · simp [Outcome.success]

private theorem accounts_stuck {reply : Except Failure CommandResult} {result : CommandResult} (f : Fault)
    (hx : (s.written u goal mode).Alike x) (hresult : CommandResult.seen reply = result)
    (bad : result.exitOk = false) (hmarks : ∀ mark ∈ marks, mark.Hidden s.path.name)
    (littered : x.Littered s.path v) :
    (s.stuck name result f).Accounts s store c w v
      (s.putMarks store prior name temp ++ .ran (s.checkArgs c) reply :: marks) := by
  have hlands : x.Lands s.path goal := hx.lands (puts_lands hp hw puts mode)
  have hsound : x.Sound := hx.sound
    (World.put_sound (puts.sound hw) puts.walk puts.noFolder s.content mode .lately).2
  have hother (q : Place) (hq : q ≠ goal) : x.tree.get? q = u.tree.get? q := by
    rw [hx.1]
    exact (Tree.put_sets hlands.ne_nil _).other hq
  have hfile : x.tree.get? goal = some (.file s.content mode .lately) := by
    rw [hx.1]
    exact (Tree.put_sets hlands.ne_nil _).self
  have hbacked : BackedUp store w x name (prior.getD []) := puts_backedUp hp hw puts hx.2 hother
  have hran (args : List String) (reply : Except Failure CommandResult) :
      Mark.ran args reply ∉ marks := fun hmem => hmarks _ hmem
  refine accounts_of_puts puts hidden (fun bytes p hmem => hmarks _ hmem)
    (fun args reply hmem => absurd hmem (hran args reply)) rfl rfl ?_ rfl (fun _ => ?_) ?_ nofun ?_ ?_
    nofun ?_ ?_
  · rcases littered_of_lands hsound hlands littered with rfl | ⟨r, n, content, mode, vacant, rfl⟩
    · exact hbacked
    · exact hbacked.tempIn vacant
  · rcases littered_of_lands hsound hlands littered with rfl | ⟨r, n, content, mode, vacant, rfl⟩
    · exact hlands.read_file hfile
    · exact (hlands.of_skeleton (tempIn_skeleton vacant) rfl).read_file
        (get?_tempIn_of_some vacant hfile)
  · exact iff_of_false nofun (not_putBack_of_hidden hmarks)
  · rw [← seen_exitOk_iff, hresult, bad]
    simp
  · simp [hran]
  · simp [hran]
  · simp [Outcome.success]

private theorem accounts_accepted {result : CommandResult} (good : result.exitOk = true)
    (still : s.reload = false) (hv : (s.written u goal mode).Alike v) :
    (s.checked name result).Accounts s store c w v
      (s.putMarks store prior name temp ++ [.ran (s.checkArgs c) (.ok result)]) := by
  obtain ⟨hread, hbacked⟩ := puts_kept hp hw puts hv
  refine accounts_of_puts puts hidden nofun nofun rfl rfl hbacked rfl (fun _ => hread) ?_ nofun ?_ ?_
    nofun ?_ ?_
  · simp
  · simp [good]
  · simp
  · simp
  · simp [Outcome.success, still]

private theorem accounts_reloaded {result : CommandResult} {reply : Except Failure CommandResult}
    (good : result.exitOk = true) (wanted : s.reload = true)
    (hv : (s.written u goal mode).Alike v) :
    ((s.checked name result).afterReload (.seen reply)).Accounts s store c w v
      (s.putMarks store prior name temp ++
        [.ran (s.checkArgs c) (.ok result), .ran c.reloadArgs reply]) := by
  obtain ⟨hread, hbacked⟩ := puts_kept hp hw puts hv
  have hreloaded : (CommandResult.seen reply).exitOk = true ↔
      ∃ result, Mark.ran c.reloadArgs (.ok result) ∈ [Mark.ran c.reloadArgs reply] ∧
        result.exitOk = true := by
    simp only [seen_exitOk_iff, List.mem_singleton, Mark.ran.injEq, true_and]
    exact exists_congr fun result' => and_congr_left fun _ => eq_comm
  generalize CommandResult.seen reply = result' at hreloaded
  have hmarks (args : List String) (reply' : Except Failure CommandResult)
      (hmem : Mark.ran args reply' ∈ [Mark.ran c.reloadArgs reply]) : args = c.reloadArgs := by
    simpa using And.left (by simpa using hmem)
  refine accounts_of_puts puts hidden (by simp) hmarks (backup_afterReload ..) ?_ hbacked ?_
    (fun _ => hread) ?_ ?_ ?_ ?_ ?_ (Iff.trans ?_ hreloaded) ?_
  all_goals
    rcases hgood : result'.exitOk <;> rcases hlate : result'.timedOut <;>
      simp [Outcome.afterReload, hgood, hlate, good, wanted, Outcome.success]

end

/-- A path that lands outside the store's folder. -/
theorem Settable.of_lands (hw : w.Sound) (hlands : w.Lands p place) (houtside : store.Outside w place) :
    Settable store w p := by
  refine ⟨fun u q hdug hwalk => ?_, fun u q target hdug hwalk hlink => ?_⟩
  · obtain rfl := hdug.of_lands hw hlands
    obtain rfl := Except.ok.inj (hlands.walk.symm.trans hwalk)
    exact houtside
  · obtain rfl := hdug.of_lands hw hlands
    obtain rfl := Except.ok.inj (hlands.walk.symm.trans hwalk)
    exact absurd hlink (hlands.ne_link target)

/-- A path without `..` that is not that of a link: missing folders do not bring it to one. -/
theorem Settable.of_no_up (hw : w.Sound) (hup : ".." ∉ p.parts)
    (hend : ∀ q target, w.tree.walk false w.here p = .ok q → w.tree.get? q ≠ some (.link target))
    (houtside : ∀ u q, w.Dug p.parent u → u.tree.walk false u.here p = .ok q → store.Outside u q) :
    Settable store w p := by
  refine ⟨houtside, fun u q target hdug hwalk hlink => ?_⟩
  rcases hdug.fresh hw hup hwalk with rfl | hnone
  · exact absurd hlink (hend q target hwalk)
  · rw [hnone] at hlink
    cases hlink

/-- However the calls of a save fare, the flags of its outcome agree with what happened. -/
theorem flags_agree (hw : w.Sound) (hquiet : w.Quiet) (hp : Settable store w s.path)
    (c : Controller) :
    (s.run store c).run.Always w fun r v marks => ∀ o, r = .ok o →
      o.Accounts s store c w v marks := by
  refine (always_run hw hquiet (fun mode puts => puts_lands hp hw puts mode) c).mono ?_
  intro r v marks hends o ho
  cases hends o ho with
  | unbacked message => exact accounts_unbacked message
  | unwritten message backs hidden littered =>
    exact accounts_unwritten message backs hidden littered
  | rejected puts hidden hx hresult bad back =>
    exact accounts_rejected hp hw puts hidden (by rw [hx]; exact ⟨rfl, rfl⟩) hresult bad back
  | stuck f puts hidden hx hresult bad hmarks littered =>
    exact accounts_stuck hp hw puts hidden f (by rw [hx]; exact ⟨rfl, rfl⟩) hresult bad hmarks littered
  | accepted puts hidden good still =>
    exact accounts_accepted hp hw puts hidden good still ⟨rfl, rfl⟩
  | reloaded puts hidden good wanted =>
    exact accounts_reloaded hp hw puts hidden good wanted ⟨rfl, rfl⟩

/-- A rejected save and its flags. -/
theorem flags_agree_strict :
    Settable ⟨["b"]⟩ strictIn saveIn.path ∧
      ∃ o, ((saveIn.run ⟨["b"]⟩ {}).run.run strictIn).1 = .ok o ∧ o.rolledBack = true ∧
        o.Accounts saveIn ⟨["b"]⟩ {} strictIn ((saveIn.run ⟨["b"]⟩ {}).run.run strictIn).2
          ((saveIn.run ⟨["b"]⟩ {}).run.marks strictIn) := by
  have hw : strictIn.Sound := ⟨Tree.sound_of_entries (by decide), rfl⟩
  have hsettable : Settable ⟨["b"]⟩ strictIn saveIn.path := by
    have hlands : strictIn.Lands saveIn.path ["d", "a"] := ⟨by cbv, rfl⟩
    refine .of_lands hw hlands fun folder hwalk => ?_
    have hfolder : strictIn.tree.walk true strictIn.here (Path.mk .one ["b"]) = .ok ["b"] := by cbv
    rw [Except.ok.inj (hwalk.symm.trans hfolder)]
    decide
  exact ⟨hsettable, _, run_strictIn, rfl,
    (flags_agree hw (fun _ _ _ => rfl) hsettable {}).run _ run_strictIn⟩

def saveLinked : Save :=
  { path := ⟨.one, ["a", "..", "d", "l", "l"]⟩, content := [98], artifact := "l" }

private theorem run_linked :
    (saveLinked.run ⟨["b"]⟩ {}).run.run World.knotted
      = (.ok ((saveLinked.checked "l.20240501_120000.backup" .well).afterReload .well),
        { World.knotted with
          tree := ⟨[(["d", "l"], .file [98] 0o755 .lately), (["a"], .folder),
            (["b", "l.20240501_120000.backup"], .file [] 0o644 .lately), (["b"], .folder),
            (["d"], .folder)]⟩
          noted := [("l", ⟨2024, 5, 1, 12, 0, 0⟩)]
          ran := [Controller.reloadArgs {}, saveLinked.checkArgs {}] }) := by cbv

/-- A path that is absent as a folder on it is missing, and that goes through a link and ends at it
once the folder is made: the new content takes the place of the link, and the path is lost. The
outcome tells of a success. -/
theorem flags_differ_through_link :
    Prior World.knotted saveLinked.path none ∧
      (∃ u, World.knotted.Dug saveLinked.path.parent u ∧
        u.tree.walk false u.here saveLinked.path = .ok ["d", "l"] ∧
        Store.Outside ⟨["b"]⟩ u ["d", "l"]) ∧
      ∃ o, ((saveLinked.run ⟨["b"]⟩ {}).run.run World.knotted).1 = .ok o ∧ o.applied = true ∧
        o.success = true ∧
        ((saveLinked.run ⟨["b"]⟩ {}).run.run World.knotted).2.read saveLinked.path
          ≠ .ok saveLinked.content := by
  have hprior : Prior World.knotted saveLinked.path none :=
    ⟨⟨.noEntry, "/a/../d/l/l", none⟩, by cbv, rfl⟩
  refine ⟨hprior, ⟨{ World.knotted with tree := World.knotted.tree.put ["a"] .folder }, ?_, by cbv, ?_⟩, ?_⟩
  · have hlands : World.knotted.Lands ⟨.one, ["a"]⟩ ["a"] := ⟨by cbv, rfl⟩
    obtain ⟨t, ht, heq⟩ := hlands.dug rfl
    exact ⟨t, ht.longer ⟨["..", "d", "l"], rfl⟩, heq⟩
  · rintro folder hwalk
    have hfolder : (World.knotted.tree.put ["a"] .folder).walk true World.knotted.here (Path.mk .one ["b"])
        = .ok ["b"] := by cbv
    rw [Except.ok.inj (hwalk.symm.trans hfolder)]
    decide
  · rw [run_linked]
    refine ⟨_, rfl, rfl, rfl, ?_⟩
    have hread : World.read
        { World.knotted with
          tree := ⟨[(["d", "l"], .file [98] 0o755 .lately), (["a"], .folder),
            (["b", "l.20240501_120000.backup"], .file [] 0o644 .lately), (["b"], .folder),
            (["d"], .folder)]⟩ } saveLinked.path
          = .error ⟨.notDirectory, "/a/../d/l/l", none⟩ := by cbv
    rintro hok
    cases hread.symm.trans hok

end Save
end ConfigSteward
