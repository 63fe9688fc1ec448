import ConfigSteward.Proofs.Backup.Hindered
import ConfigSteward.Proofs.Save.Course
import ConfigSteward.Proofs.World.Supplanting

/-!
# Saves amid mishaps

Any file call of a save may fail, those of putting the prior content back included. `Concludes` says
how a save may end then: with which outcome, in which world and after which marks.
-/
namespace ConfigSteward

open Plan

namespace Save

variable {hazard : Hazard} {s : Save} {store : Store} {c : Controller} {w u v x : World}
  {p temp : Path} {prior : Option Bytes} {name : String} {place goal : Place} {mode : Nat}

/-- The path came to end at `goal`, by way of the folders in `u`, after the prior content was backed
up, and there is no folder at its end. -/
structure Puts (s : Save) (store : Store) (w : World) (prior : Option Bytes) (name : String)
    (place : Place) (u : World) (goal : Place) : Prop where
  backs : s.Backs store w prior name place
  dug : (s.stored w prior place).Dug s.path.parent u
  walk : u.tree.walk false u.here s.path = .ok goal
  noFolder : u.tree.get? goal ≠ some .folder

/-- The marks of the backup and of the new content that is put in place. -/
def putMarks (s : Save) (store : Store) (prior : Option Bytes) (name : String) (temp : Path) :
    List Mark :=
  [.filled (store.pathOf name) (prior.getD []), .filled temp s.content, .moved temp s.path]

/-- The marks of prior content that is put back. -/
def BackMarks (p : Path) : Option Bytes → List Mark → Prop
  | none, marks => marks = [.unlinked p]
  | some bytes, marks => ∃ temp, Mark.Hidden p.name (.filled temp bytes) ∧
      marks = [.filled temp bytes, .moved temp p]

/-- The outcome of a failed check after which the prior content could not be put back. -/
@[simps]
def stuck (s : Save) (name : String) (result : CommandResult) (f : Fault) : Outcome :=
  { s.rejected name result with
    applied := true
    rolledBack := false
    message := some ("config test failed and rollback failed: " ++ f.message) }

/-- How a save may end amid mishaps, if it returns an outcome. -/
inductive Concludes (s : Save) (store : Store) (c : Controller) (w : World) :
    Outcome → World → List Mark → Prop where
  | unbacked {v : World} (message : Option String) : Concludes s store c w
      { artifact := s.artifact, error := some .backupFailed, message := message } v []
  | unwritten {v : World} {prior : Option Bytes} {name : String} {place : Place}
      {marks : List Mark} (message : Option String) (backs : s.Backs store w prior name place)
      (hidden : ∀ mark ∈ marks, mark.Hidden s.path.name)
      (littered : (s.stored w prior place).Littered s.path v) :
      Concludes s store c w
        { s.backedUp name with error := some .writeFailed, message := message } v
        (.filled (store.pathOf name) (prior.getD []) :: marks)
  | rejected {u x : World} {prior : Option Bytes} {name : String} {place goal : Place}
      {mode m : Nat} {temp : Path} {result : CommandResult} {marks : List Mark}
      (puts : s.Puts store w prior name place u goal)
      (hidden : Mark.Hidden s.path.name (.filled temp s.content))
      (hx : x = (s.written u goal mode).hasRun (s.checkArgs c))
      (hresult : CommandResult.seen ((s.written u goal mode).replyTo (s.checkArgs c)) = result)
      (bad : result.exitOk = false) (back : BackMarks s.path prior marks) :
      Concludes s store c w (s.rejected name result)
        { x with tree := x.tree.putBack goal m prior }
        (s.putMarks store prior name temp ++
          .ran (s.checkArgs c) ((s.written u goal mode).replyTo (s.checkArgs c)) :: marks)
  | stuck {u x v : World} {prior : Option Bytes} {name : String} {place goal : Place}
      {mode : Nat} {temp : Path} {result : CommandResult} {marks : List Mark} (f : Fault)
      (puts : s.Puts store w prior name place u goal)
      (hidden : Mark.Hidden s.path.name (.filled temp s.content))
      (hx : x = (s.written u goal mode).hasRun (s.checkArgs c))
      (hresult : CommandResult.seen ((s.written u goal mode).replyTo (s.checkArgs c)) = result)
      (bad : result.exitOk = false) (hmarks : ∀ mark ∈ marks, mark.Hidden s.path.name)
      (littered : x.Littered s.path v) :
      Concludes s store c w (s.stuck name result f) v
        (s.putMarks store prior name temp ++
          .ran (s.checkArgs c) ((s.written u goal mode).replyTo (s.checkArgs c)) :: marks)
  | accepted {u : World} {prior : Option Bytes} {name : String} {place goal : Place} {mode : Nat}
      {temp : Path} {result : CommandResult} (puts : s.Puts store w prior name place u goal)
      (hidden : Mark.Hidden s.path.name (.filled temp s.content)) (good : result.exitOk = true)
      (still : s.reload = false) :
      Concludes s store c w (s.checked name result)
        ((s.written u goal mode).hasRun (s.checkArgs c))
        (s.putMarks store prior name temp ++ [.ran (s.checkArgs c) (.ok result)])
  | reloaded {u : World} {prior : Option Bytes} {name : String} {place goal : Place} {mode : Nat}
      {temp : Path} {result : CommandResult} {reply : Except Failure CommandResult}
      (puts : s.Puts store w prior name place u goal)
      (hidden : Mark.Hidden s.path.name (.filled temp s.content)) (good : result.exitOk = true)
      (wanted : s.reload = true) :
      Concludes s store c w ((s.checked name result).afterReload (.seen reply))
        (((s.written u goal mode).hasRun (s.checkArgs c)).hasRun c.reloadArgs)
        (s.putMarks store prior name temp ++
          [.ran (s.checkArgs c) (.ok result), .ran c.reloadArgs reply])

theorem always_resultOf (hquiet : w.Quiet) (args : List String) :
    (resultOf (Controller.run args)).run.Leaves hazard w fun r v marks =>
      r = .ok (.seen (w.replyTo args)) ∧ v = w.hasRun args ∧
        marks = [.ran args (w.replyTo args)] := by
  have hafter : (w.perform (.run args)).2 = w.hasRun args := by
    change { w with tree := (w.programs w.ran args w.tree).2, ran := args :: w.ran } = _
    rw [hquiet, World.hasRun]
  have hreply : (w.perform (.run args)).1 = w.replyTo args := rfl
  rw [resultOf]
  refine always_andThen.mpr (Task.always_attempt.mpr
    ((Plan.always_sure (r := .run args) fun _ => rfl).mpr ?_))
  rw [hafter, hreply]
  rcases hresult : w.replyTo args with failure | result
  · exact ⟨rfl, rfl, rfl⟩
  · exact ⟨rfl, rfl, rfl⟩

theorem always_priorContent (w : World) (p : Path) :
    (priorContent p).run.Leaves hazard w fun r v marks =>
      v = w ∧ marks = [] ∧ ∀ prior, r = .ok prior → Prior w p prior := by
  rw [priorContent]
  refine always_andThen.mpr (FileTask.always_attempt.mpr (FileTask.always_read.mpr
    ⟨?_, fun f hf => ?_⟩))
  · rcases hread : w.read p with f | bytes
    · by_cases hf : f.cause = .noEntry
      · simp only [hf, if_true]
        exact ⟨rfl, rfl, fun prior hprior => Except.ok.inj hprior ▸ ⟨f, hread, hf⟩⟩
      · simp only [hf, if_false]
        exact ⟨rfl, rfl, by simp⟩
    · exact ⟨rfl, rfl, fun prior hprior => Except.ok.inj hprior ▸ hread⟩
  · simp only [(hazard.untimely hf).1, if_false]
    exact ⟨rfl, rfl, by simp⟩

/-- Where a path lands nothing is made on the way to it. -/
theorem littered_of_lands (hx : x.Sound) (hlands : x.Lands p goal) (h : x.Littered p v) :
    v = x ∨ ∃ r n content mode, x.tree.get? (r ++ [World.tempName p.name n]) = none ∧
      v = FileTask.tempIn x p r n content mode := by
  obtain ⟨u, hdug, hv⟩ := h
  obtain rfl := (hlands.stands_parent hx).eq_of_dug hx hdug
  exact hv

theorem always_putBack (hx : x.Sound) (hlands : x.Lands p goal) {content : Bytes}
    {changed : Changed} (hfile : x.tree.get? goal = some (.file content mode changed))
    (prior : Option Bytes) :
    (putBack p prior).run.Leaves hazard x fun r v marks =>
      match r with
      | .ok () => BackMarks p prior marks ∧
          ∃ mode, v = { x with tree := x.tree.putBack goal mode prior }
      | .error _ => (∀ mark ∈ marks, mark.Hidden p.name) ∧ x.Littered p v := by
  cases prior with
  | none =>
    rw [putBack, unlinkIfThere]
    refine always_andThen.mpr (FileTask.always_attempt.mpr (FileTask.always_unlink.mpr
      ⟨?_, fun f hf => ?_⟩))
    · rw [hlands.unlink_file hfile]
      exact ⟨rfl, 0, rfl⟩
    · simp only [(hazard.untimely hf).1, if_false]
      exact ⟨by simp, x, .refl x _, .inl rfl⟩
  | some bytes =>
    refine (FileTask.always_replace hx p bytes).mono ?_
    rintro (f | ⟨⟩) v marks hresult
    · exact ⟨hresult.1, hresult.2.1⟩
    · obtain ⟨hmarks, u, goal', mode', hdug, hwalk, -, -, rfl⟩ := hresult
      obtain rfl := (hlands.stands_parent hx).eq_of_dug hx hdug
      obtain rfl := Except.ok.inj (hlands.walk.symm.trans hwalk)
      exact ⟨hmarks, mode', rfl⟩

theorem always_rollBack (hx : x.Sound) (hlands : x.Lands s.path goal) {content : Bytes}
    {changed : Changed} (hfile : x.tree.get? goal = some (.file content mode changed))
    (prior : Option Bytes) (o : Outcome) :
    (s.rollBack prior o).run.Leaves hazard x fun r v marks =>
      r = .ok { o with applied := false, rolledBack := true } ∧ BackMarks s.path prior marks ∧
          (∃ mode, v = { x with tree := x.tree.putBack goal mode prior }) ∨
        (∃ f : Fault, r = .ok { o with
          message := some ("config test failed and rollback failed: " ++ f.message) }) ∧
          (∀ mark ∈ marks, mark.Hidden s.path.name) ∧ x.Littered s.path v := by
  rw [rollBack]
  refine always_andThen.mpr (Task.always_attemptFile.mpr
    ((always_putBack hx hlands hfile prior).mono ?_))
  rintro (f | ⟨⟩) v marks hresult
  · exact .inr ⟨⟨f, rfl⟩, by simpa using hresult⟩
  · exact .inl ⟨rfl, by simpa using hresult⟩

theorem always_reloadStep (hquiet : w.Quiet) (o : Outcome) :
    (s.reloadStep c o).run.Leaves hazard w fun r v marks =>
      s.reload = false ∧ r = .ok o ∧ v = w ∧ marks = [] ∨
        s.reload = true ∧ r = .ok (o.afterReload (.seen (w.replyTo c.reloadArgs))) ∧
          v = w.hasRun c.reloadArgs ∧ marks = [.ran c.reloadArgs (w.replyTo c.reloadArgs)] := by
  rw [reloadStep]
  by_cases hreload : s.reload = true
  · rw [if_pos hreload]
    refine always_andThen.mpr ((always_resultOf hquiet c.reloadArgs).mono ?_)
    rintro r v marks ⟨rfl, rfl, rfl⟩
    generalize CommandResult.seen (w.replyTo c.reloadArgs) = result
    by_cases hgood : result.exitOk = true
    · simp only [hgood, if_true]
      exact .inr ⟨hreload, by simp [Outcome.afterReload, hgood], rfl, rfl⟩
    · by_cases hlate : result.timedOut = true
      · simp only [hgood, hlate, if_true]
        exact .inr ⟨hreload, by simp [Outcome.afterReload, hgood, hlate], rfl, rfl⟩
      · simp only [hgood, hlate]
        exact .inr ⟨hreload, by simp [Outcome.afterReload, hgood, hlate], rfl, rfl⟩
  · rw [if_neg hreload]
    exact .inl ⟨by simpa using hreload, rfl, rfl, rfl⟩

/-- A result that a save sees as good is that of a program that could be run. -/
theorem reply_of_seen {reply : Except Failure CommandResult} {result : CommandResult}
    (hseen : CommandResult.seen reply = result) (hgood : result.exitOk = true) :
    reply = .ok result := by
  cases reply with
  | ok result' => exact congrArg Except.ok hseen
  | error failure =>
    rw [← hseen, CommandResult.seen, CommandResult.failed] at hgood
    cases hgood

theorem Puts.sound (puts : s.Puts store w prior name place u goal) (hw : w.Sound) : u.Sound :=
  puts.dug.sound (puts.backs.sound hw)

/-- Without the backup the path comes to end at the same place, and nothing but the backup is missing
then. -/
theorem Puts.without_backup (puts : s.Puts store w prior name place u goal) : ∃ t,
    w.Dug s.path.parent { w with tree := t } ∧ t.walk false w.here s.path = .ok goal ∧
      (∀ q, u.tree.skeleton q = t.skeleton q) ∧ ∀ q, q ≠ place → u.tree.get? q = t.get? q := by
  obtain ⟨t', hdug, rfl⟩ := puts.dug
  have hset : w.tree.Sets place (some (.file (prior.getD []) World.plainMode .lately))
      (s.stored w prior place).tree := Tree.put_sets puts.backs.slot.lands.ne_nil _
  obtain ⟨t, ht, hvacant, hsets⟩ := hdug.beside hset puts.backs.slot.vacant
  have hskeleton := hsets.skeleton_eq (Tree.skeleton_of_vacant hvacant)
    (Tree.skeleton_of_file hsets.self)
  exact ⟨t, ⟨t, ht, rfl⟩, Tree.walk_mono (.of_eq fun q => (hskeleton q).symm) puts.walk, hskeleton,
    fun q hq => hsets.other hq⟩

section
variable (hw : w.Sound) (hquiet : w.Quiet)
  (hfound : ∀ {prior name place u goal} mode, s.Puts store w prior name place u goal →
    (s.written u goal mode).Lands s.path goal)
include hw hquiet hfound

theorem always_checkStep (puts : s.Puts store w prior name place u goal)
    (hidden : Mark.Hidden s.path.name (.filled temp s.content)) (mode : Nat) :
    (s.checkStep c prior { s.backedUp name with applied := true }).run.Leaves hazard
      (s.written u goal mode) fun r v marks => ∀ o, r = .ok o →
        s.Concludes store c w o v (s.putMarks store prior name temp ++ marks) := by
  have hquiet' : (s.written u goal mode).Quiet := by
    obtain ⟨t, -, rfl⟩ := puts.dug
    exact hquiet
  obtain ⟨hgoal, hsound⟩ := World.put_sound (puts.sound hw) puts.walk puts.noFolder s.content mode
    .lately
  rw [checkStep]
  refine always_andThen.mpr ((always_resultOf hquiet' (s.checkArgs c)).mono ?_)
  rintro r v marks ⟨rfl, rfl, rfl⟩
  generalize hresult :
    CommandResult.seen ((s.written u goal mode).replyTo (s.checkArgs c)) = result
  have halike : (s.written u goal mode).Alike ((s.written u goal mode).hasRun (s.checkArgs c)) :=
    ⟨rfl, rfl⟩
  by_cases hgood : result.exitOk = true
  · simp only [hgood, if_true, reply_of_seen hresult hgood]
    refine (always_reloadStep (w := (s.written u goal mode).hasRun _) hquiet' _).mono ?_
    rintro r v marks (⟨hstill, rfl, rfl, rfl⟩ | ⟨hwanted, rfl, rfl, rfl⟩) o ho
    · obtain rfl := Except.ok.inj ho
      exact .accepted puts hidden hgood hstill
    · obtain rfl := Except.ok.inj ho
      exact .reloaded puts hidden hgood hwanted
  · have hbad : result.exitOk = false := by simpa using hgood
    have hrollBack (o : Outcome)
        (hback : { o with applied := false, rolledBack := true } = s.rejected name result)
        (hstuck : ∀ f : Fault, { o with
          message := some ("config test failed and rollback failed: " ++ f.message) }
            = s.stuck name result f) :
        (s.rollBack prior o).run.Leaves hazard ((s.written u goal mode).hasRun (s.checkArgs c))
          fun r v marks => ∀ o, r = .ok o → s.Concludes store c w o v
            (s.putMarks store prior name temp ++
              .ran (s.checkArgs c) ((s.written u goal mode).replyTo (s.checkArgs c)) :: marks) := by
      refine (always_rollBack (halike.sound hsound) (halike.lands (hfound mode puts))
        (Tree.put_sets hgoal _).self prior o).mono ?_
      rintro r v marks (⟨rfl, hmarks, mode', rfl⟩ | ⟨⟨f, rfl⟩, hmarks, hlittered⟩) o ho
      · obtain rfl := Except.ok.inj ho
        rw [hback]
        exact .rejected puts hidden rfl hresult hbad hmarks
      · obtain rfl := Except.ok.inj ho
        rw [hstuck]
        exact .stuck f puts hidden rfl hresult hbad hmarks hlittered
    by_cases hlate : result.timedOut = true
    · simp only [hgood, hlate, if_true]
      simpa using hrollBack _ (by simp [rejected, hlate, backedUp])
        fun f => by simp [stuck, rejected, hlate, backedUp]
    · simp only [hgood, hlate]
      simpa using hrollBack _ (by simp [rejected, hlate, backedUp])
        fun f => by simp [stuck, rejected, hlate, backedUp]

theorem always_writeStep (backs : s.Backs store w prior name place) :
    (s.writeStep c prior (s.backedUp name)).run.Leaves hazard (s.stored w prior place)
      fun r v marks => ∀ o, r = .ok o → s.Concludes store c w o v
        (.filled (store.pathOf name) (prior.getD []) :: marks) := by
  rw [writeStep]
  refine always_andThen.mpr (Task.always_attemptFile.mpr
    ((FileTask.always_replace (backs.sound hw) s.path s.content).mono ?_))
  rintro (f | ⟨⟩) v marks hresult
  · intro o ho
    obtain rfl := Except.ok.inj ho
    simpa using Concludes.unwritten _ backs hresult.1 hresult.2.1
  · obtain ⟨⟨temp, hidden, rfl⟩, u, goal, mode, hdug, hwalk, hgoal, -, rfl⟩ := hresult
    exact always_checkStep hw hquiet hfound ⟨backs, hdug, hwalk, hgoal⟩ hidden mode

/-- How a save ends amid mishaps, where the new content is found at the end of the path once it was
put there. -/
theorem always_run (c : Controller) :
    (s.run store c).run.Leaves hazard w fun r v marks => ∀ o, r = .ok o →
      s.Concludes store c w o v marks := by
  refine Lock.always_hold _ (fun _ _ ho => by cases ho) ?_
  rw [steps]
  refine always_andThen.mpr (Task.always_attemptFile.mpr ((always_priorContent w s.path).mono ?_))
  rintro (f | prior) v marks ⟨rfl, rfl, hprior⟩
  · intro o ho
    exact Except.ok.inj ho ▸ .unbacked _
  change (s.backupStep store c prior).run.Leaves hazard v _
  rw [backupStep]
  refine always_andThen.mpr (Task.always_attempt.mpr ((store.always_create v s.artifact _).mono ?_))
  rintro (failure | b) u marks hcreated
  · obtain ⟨rfl, ⟨refusal, rfl, -⟩, -⟩ := hcreated
    intro o ho
    exact Except.ok.inj ho ▸ .unbacked _
  · obtain ⟨rfl, -, place, hslot, rfl⟩ := hcreated
    exact always_writeStep hw hquiet hfound ⟨hprior prior rfl, hslot⟩

end
end Save
end ConfigSteward
