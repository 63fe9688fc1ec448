import ConfigSteward.Proofs.Backup.Creation
import ConfigSteward.Proofs.Save.Rollback
import ConfigSteward.Proofs.World.Locks
import ConfigSteward.Proofs.World.Regular
import Mathlib.Tactic.Simps.Basic

/-!
# The course of a save

`Phase` says where a save may be when it is looked at, `Ends` how it may end: with which outcome, in
which world and after which programs. What holds of every save is read off these two.
-/
namespace ConfigSteward

open Plan

namespace World

/-- What running a program gives. -/
def replyTo (w : World) (args : List String) : Except Failure CommandResult :=
  (w.programs w.ran args w.tree).1

def hasRun (w : World) (args : List String) : World := { w with ran := args :: w.ran }

end World

/-- A quiet program leaves its result and nothing else. -/
theorem Controller.does_run {w : World} (hquiet : w.Quiet) (args : List String) :
    (run args).run.Does w.Alike w fun r v es =>
      r = w.replyTo args ∧ v = w.hasRun args ∧ es = [⟨w, args, w.replyTo args⟩] := by
  have hafter : (w.perform (.run args)).2 = w.hasRun args := by
    change { w with tree := (w.programs w.ran args w.tree).2, ran := args :: w.ran } = _
    rw [hquiet, World.hasRun]
  refine does_request.mpr ⟨.refl w, fun v hv => hv.elim, ?_, rfl, hafter, rfl⟩
  rw [hafter]
  exact ⟨rfl, rfl⟩

/-- How a failure to run a program is seen. -/
def CommandResult.seen : Except Failure CommandResult → CommandResult
  | .ok result => result
  | .error failure => .failed failure.message

/-- The outcome after a reload with the given result. -/
def Outcome.afterReload (o : Outcome) (result : CommandResult) : Outcome :=
  let o := { o with reloadAttempted := true, reloadOutput := result.output }
  if result.exitOk then { o with reloaded := true }
  else if result.timedOut then
    { o with error := some .timeout, message := some "config saved but reload timed out" }
  else { o with error := some .reloadFailed, message := some "config saved but reload failed" }

namespace Save

variable {s : Save} {store : Store} {c : Controller} {w w₁ u v : World} {prior : Option Bytes}
  {name : String} {place goal : Place} {mode : Nat} {o : Outcome}

/-- The arguments of the check. -/
def checkArgs (s : Save) (c : Controller) : List String :=
  c.validateArgs (match s.checkedFile with
    | some text => if text = "" then s.path.text else text
    | none => s.path.text)

/-- What a file holds before it is saved; `none` if there is no file. -/
def Prior (w : World) (p : Path) : Option Bytes → Prop
  | some bytes => w.read p = .ok bytes
  | none => ∃ f, w.read p = .error f ∧ f.cause = .noEntry

/-- The prior content is backed up under a name at a place. -/
structure Backs (s : Save) (store : Store) (w : World) (prior : Option Bytes) (name : String)
    (place : Place) : Prop where
  prior : Prior w s.path prior
  slot : store.Slot w s.artifact name place

/-- The world in which the prior content is backed up. -/
def stored (s : Save) (w : World) (prior : Option Bytes) (place : Place) : World :=
  (w.noting s.artifact).withFile place (prior.getD [])

/-- Where a save may be when it is looked at. -/
inductive Phase (s : Save) (store : Store) (w : World) (prior : Option Bytes) (name : String)
    (place : Place) (v : World) : Prop where
  | before (hv : w.Alike v)
  | copying (k : Nat) (backs : s.Backs store w prior name place)
      (hv : (w.withFile place ((prior.getD []).take k)).Alike v)
  | replacing {x : World} (backs : s.Backs store w prior name place)
      (replacing : (s.stored w prior place).Replacing s.path s.content x) (hv : x.Alike v)
  | puttingBack {u x y : World} {goal : Place} {mode : Nat}
      (backs : s.Backs store w prior name place)
      (replaces : (s.stored w prior place).Replaces s.path u goal mode)
      (saved : World.Alike { u with tree := u.tree.put goal (.file s.content mode .lately) } x)
      (puttingBack : PuttingBack s.path x (u.tree.putBack goal mode prior) y) (hv : y.Alike v)

/-- The file was replaced, by way of the folders in `u`, after its prior content was backed up. -/
structure Writes (s : Save) (store : Store) (w : World) (prior : Option Bytes) (name : String)
    (place : Place) (u : World) (goal : Place) (mode : Nat) : Prop where
  backs : s.Backs store w prior name place
  replaces : (s.stored w prior place).Replaces s.path u goal mode

/-- The world with the new content in place. -/
def written (s : Save) (u : World) (goal : Place) (mode : Nat) : World :=
  { u with tree := u.tree.put goal (.file s.content mode .lately) }

/-- The outcome once the file is backed up. -/
@[simps]
def backedUp (s : Save) (name : String) : Outcome :=
  { artifact := s.artifact, backup := some name, backupCreated := true }

/-- The outcome once the new content has passed its check. -/
@[simps]
def checked (s : Save) (name : String) (result : CommandResult) : Outcome :=
  { s.backedUp name with
    applied := true, validated := true, validationOutput := result.output }

/-- The outcome of a failed check. -/
@[simps]
def rejected (s : Save) (name : String) (result : CommandResult) : Outcome :=
  { s.backedUp name with
    rolledBack := true
    validationOutput := result.output
    error := some (if result.timedOut then .timeout else .validationFailed)
    message := some (if result.timedOut then "config test timed out" else "config test failed") }

/-- The save failed before the new content had passed its check. -/
def FailsEarly (o : Outcome) : Prop :=
  o.error = some .backupFailed ∨ o.error = some .writeFailed ∨
    o.error = some .validationFailed ∨ o.error = some .timeout ∧ o.validated = false

/-- How a save may end. -/
inductive Ends (s : Save) (store : Store) (c : Controller) (w : World) (prior : Option Bytes)
    (name : String) (place : Place) : Except Failure Outcome → World → List Execution → Prop where
  | looped (p : Place) : Ends s store c w prior name place (.error (.linkLoop p)) w []
  | refused {v : World} (message : Option String) (hv : v = w ∨ v = w.noting s.artifact) :
      Ends s store c w prior name place
        (.ok { artifact := s.artifact, error := some .backupFailed, message := message }) v []
  | unwritten {v : World} (message : Option String) (backs : s.Backs store w prior name place)
      (dug : (s.stored w prior place).Dug s.path.parent v) :
      Ends s store c w prior name place
        (.ok { s.backedUp name with error := some .writeFailed, message := message }) v []
  | rejected {u : World} {goal : Place} {mode : Nat} {result : CommandResult}
      (writes : s.Writes store w prior name place u goal mode)
      (hresult : CommandResult.seen ((s.written u goal mode).replyTo (s.checkArgs c)) = result)
      (bad : result.exitOk = false) :
      Ends s store c w prior name place (.ok (s.rejected name result))
        { (s.written u goal mode).hasRun (s.checkArgs c) with
          tree := u.tree.putBack goal mode prior }
        [⟨s.written u goal mode, s.checkArgs c, (s.written u goal mode).replyTo (s.checkArgs c)⟩]
  | accepted {u : World} {goal : Place} {mode : Nat} {result : CommandResult}
      (writes : s.Writes store w prior name place u goal mode)
      (hresult : (s.written u goal mode).replyTo (s.checkArgs c) = .ok result)
      (good : result.exitOk = true) (still : s.reload = false) :
      Ends s store c w prior name place (.ok (s.checked name result))
        ((s.written u goal mode).hasRun (s.checkArgs c))
        [⟨s.written u goal mode, s.checkArgs c, .ok result⟩]
  | reloaded {u : World} {goal : Place} {mode : Nat} {result result' : CommandResult}
      (writes : s.Writes store w prior name place u goal mode)
      (hresult : (s.written u goal mode).replyTo (s.checkArgs c) = .ok result)
      (good : result.exitOk = true)
      (hresult' : CommandResult.seen
        (((s.written u goal mode).hasRun (s.checkArgs c)).replyTo c.reloadArgs) = result') :
      Ends s store c w prior name place (.ok ((s.checked name result).afterReload result'))
        (((s.written u goal mode).hasRun (s.checkArgs c)).hasRun c.reloadArgs)
        [⟨s.written u goal mode, s.checkArgs c, .ok result⟩,
          ⟨(s.written u goal mode).hasRun (s.checkArgs c), c.reloadArgs,
            ((s.written u goal mode).hasRun (s.checkArgs c)).replyTo c.reloadArgs⟩]

theorem does_resultOf (hquiet : w.Quiet) (args : List String) :
    (resultOf (Controller.run args)).run.Does w.Alike w fun r v es =>
      r = .ok (.seen (w.replyTo args)) ∧ v = w.hasRun args ∧ es = [⟨w, args, w.replyTo args⟩] := by
  rw [resultOf]
  refine does_andThen.mpr (Task.does_attempt.mpr
    ((Controller.does_run hquiet args).mono (fun _ hv => hv) ?_))
  rintro r v es ⟨rfl, rfl, rfl⟩
  rcases w.replyTo args with failure | result
  · exact does_pure.mpr ⟨⟨rfl, rfl⟩, rfl, rfl, rfl⟩
  · exact does_pure.mpr ⟨⟨rfl, rfl⟩, rfl, rfl, rfl⟩

theorem does_priorContent (w : World) (p : Path) :
    (priorContent p).run.Does (· = w) w fun r v es => v = w ∧ es = [] ∧
      ((∃ prior, r = .ok prior ∧ Prior w p prior) ∨ ∃ f, r = .error f) := by
  rw [priorContent]
  refine does_andThen.mpr (FileTask.does_attempt.mpr (FileTask.does_read.mpr ⟨rfl, ?_⟩))
  rcases hread : w.read p with f | bytes
  · by_cases hf : f.cause = .noEntry
    · simp only [hf, if_true]
      exact does_pure.mpr ⟨rfl, rfl, rfl, .inl ⟨none, rfl, f, hread, hf⟩⟩
    · simp only [hf, if_false]
      exact does_throw.mpr ⟨rfl, rfl, rfl, .inr ⟨f, rfl⟩⟩
  · exact does_pure.mpr ⟨rfl, rfl, rfl, .inl ⟨some bytes, rfl, hread⟩⟩

theorem does_reloadStep (hquiet : w.Quiet) (o : Outcome) :
    (s.reloadStep c o).run.Does w.Alike w fun r v es =>
      s.reload = false ∧ r = .ok o ∧ v = w ∧ es = [] ∨
        r = .ok (o.afterReload (.seen (w.replyTo c.reloadArgs))) ∧ v = w.hasRun c.reloadArgs ∧
          es = [⟨w, c.reloadArgs, w.replyTo c.reloadArgs⟩] := by
  rw [reloadStep]
  by_cases hreload : s.reload = true
  · rw [if_pos hreload]
    refine does_andThen.mpr ((does_resultOf hquiet c.reloadArgs).mono (fun _ hv => hv) ?_)
    rintro r v es ⟨rfl, rfl, rfl⟩
    generalize CommandResult.seen (w.replyTo c.reloadArgs) = result
    have hv : w.Alike (w.hasRun c.reloadArgs) := ⟨rfl, rfl⟩
    by_cases hgood : result.exitOk = true
    · simp only [hgood, if_true]
      exact does_pure.mpr ⟨hv, .inr ⟨by simp [Outcome.afterReload, hgood], rfl, rfl⟩⟩
    · by_cases hlate : result.timedOut = true
      · simp only [hgood, hlate, if_true]
        exact does_pure.mpr ⟨hv, .inr ⟨by simp [Outcome.afterReload, hgood, hlate], rfl, rfl⟩⟩
      · simp only [hgood, hlate]
        exact does_pure.mpr ⟨hv, .inr ⟨by simp [Outcome.afterReload, hgood, hlate], rfl, rfl⟩⟩
  · rw [if_neg hreload]
    exact does_pure.mpr ⟨.refl w, .inl ⟨by simpa using hreload, rfl, rfl, rfl⟩⟩

theorem Backs.sound (h : s.Backs store w prior name place) (hw : w.Sound) :
    (s.stored w prior place).Sound :=
  ((w.noting_alike s.artifact).lands h.slot.lands).put_sound
    ((w.noting_alike s.artifact).sound hw) _ _ _

theorem Backs.skeleton (h : s.Backs store w prior name place) (q : Place) :
    (s.stored w prior place).tree.skeleton q = w.tree.skeleton q :=
  h.slot.lands.put_file _ _ _ q

theorem Backs.other (h : s.Backs store w prior name place) {q : Place} (hq : q ≠ place) :
    (s.stored w prior place).tree.get? q = w.tree.get? q :=
  (Tree.put_sets h.slot.lands.ne_nil _).other hq

/-- The backup leaves the file itself alone. -/
theorem Backs.read_stored (h : s.Backs store w prior name place) (hp : w.Steady s.path)
    (bytes : Bytes) (hbytes : prior = some bytes) :
    (s.stored w prior place).read s.path = .ok bytes := by
  have hread := h.prior
  rw [hbytes] at hread
  obtain ⟨q, mode, changed, hlands, hfile⟩ := hp.lands_of_read hread
  have hq : q ≠ place := by
    rintro rfl
    rw [h.slot.vacant] at hfile
    cases hfile
  exact (hlands.of_skeleton h.skeleton rfl).read_file (by rw [h.other hq, hfile])

theorem does_rollBack (hw : w.Sound) (hp : w.Steady s.path)
    (writes : s.Writes store w prior name place u goal mode)
    (hv : (s.written u goal mode).Alike v) (hdraw : v.draw = u.draw) (o : Outcome) :
    (s.rollBack prior o).run.Does (s.Phase store w prior name place) v fun r x es =>
      r = .ok { o with applied := false, rolledBack := true } ∧
        x = { v with tree := u.tree.putBack goal mode prior } ∧ es = [] := by
  have hphase (x : World) (hx : PuttingBack s.path v (u.tree.putBack goal mode prior) x) :
      s.Phase store w prior name place x :=
    .puttingBack writes.backs writes.replaces hv hx (.refl x)
  have hback := does_putBack (writes.backs.sound hw)
    (hp.of_skeleton writes.backs.skeleton rfl) writes.replaces hv hdraw
    (writes.backs.read_stored hp)
  rw [rollBack]
  refine does_andThen.mpr (Task.does_attemptFile.mpr (hback.mono hphase ?_))
  rintro r x es ⟨rfl, rfl, rfl⟩
  exact does_pure.mpr ⟨hphase _ .done, rfl, rfl, rfl⟩

theorem Writes.phase (writes : s.Writes store w prior name place u goal mode)
    (hv : (s.written u goal mode).Alike v) : s.Phase store w prior name place v :=
  .replacing writes.backs (.done writes.replaces) hv

theorem does_checkStep (hw : w.Sound) (hp : w.Steady s.path) (hquiet : w.Quiet)
    (writes : s.Writes store w prior name place u goal mode) :
    (s.checkStep c prior { s.backedUp name with applied := true }).run.Does
      (s.Phase store w prior name place) (s.written u goal mode)
      (s.Ends store c w prior name place) := by
  have hquiet' : (s.written u goal mode).Quiet := by
    obtain ⟨t, -, rfl⟩ := writes.replaces.dug
    exact hquiet
  rw [checkStep]
  refine does_andThen.mpr ((does_resultOf hquiet' (s.checkArgs c)).mono
    (fun v hv => writes.phase hv) ?_)
  rintro r v es ⟨rfl, rfl, rfl⟩
  generalize hresult :
    CommandResult.seen ((s.written u goal mode).replyTo (s.checkArgs c)) = result
  have halike : (s.written u goal mode).Alike ((s.written u goal mode).hasRun (s.checkArgs c)) :=
    ⟨rfl, rfl⟩
  by_cases hgood : result.exitOk = true
  · have hreply : (s.written u goal mode).replyTo (s.checkArgs c) = .ok result := by
      rcases hreply : (s.written u goal mode).replyTo (s.checkArgs c) with failure | result'
      · rw [hreply, CommandResult.seen] at hresult
        rw [← hresult, CommandResult.failed] at hgood
        cases hgood
      · rw [hreply, CommandResult.seen] at hresult
        rw [hresult]
    simp only [hgood, if_true]
    refine (does_reloadStep (w := (s.written u goal mode).hasRun _) hquiet' _).mono
      (fun v hv => writes.phase (halike.trans hv)) ?_
    rintro r v es (⟨hstill, rfl, rfl, rfl⟩ | ⟨rfl, rfl, rfl⟩)
    · simp only [hreply, List.append_nil]
      exact .accepted writes hreply hgood hstill
    · simp only [hreply]
      exact .reloaded writes hreply hgood rfl
  · have hbad : result.exitOk = false := by simpa using hgood
    by_cases hlate : result.timedOut = true
    · simp only [hgood, hlate, if_true]
      refine (does_rollBack hw hp writes halike rfl _).mono (fun _ hv => hv) ?_
      rintro r v es ⟨rfl, rfl, rfl⟩
      have hends : s.Ends store c w prior name place _ _ _ := .rejected writes hresult hbad
      simpa [rejected, hlate, backedUp] using hends
    · simp only [hgood, hlate]
      refine (does_rollBack hw hp writes halike rfl _).mono (fun _ hv => hv) ?_
      rintro r v es ⟨rfl, rfl, rfl⟩
      have hends : s.Ends store c w prior name place _ _ _ := .rejected writes hresult hbad
      simpa [rejected, hlate, backedUp] using hends

theorem does_writeStep (hw : w.Sound) (hp : w.Steady s.path) (hquiet : w.Quiet)
    (backs : s.Backs store w prior name place) :
    (s.writeStep c prior (s.backedUp name)).run.Does (s.Phase store w prior name place)
      (s.stored w prior place) (s.Ends store c w prior name place) := by
  rw [writeStep]
  refine does_andThen.mpr (Task.does_attemptFile.mpr
    ((FileTask.does_replace (backs.sound hw) s.path s.content).mono ?_ ?_))
  · intro v hv
    exact .replacing backs hv (.refl v)
  · rintro (f | ⟨⟩) v es ⟨rfl, hresult⟩
    · refine does_pure.mpr ⟨.replacing backs (.dug hresult.1) (.refl v), ?_⟩
      exact .unwritten _ backs hresult.1
    · obtain ⟨u, goal, mode, hreplaces, rfl⟩ := hresult
      exact does_checkStep hw hp hquiet ⟨backs, hreplaces⟩

theorem does_backupStep (hw : w.Sound) (hp : w.Steady s.path) (hquiet : w.Quiet) (store : Store)
    (c : Controller) (hprior : Prior w s.path prior) : ∃ name place,
    (s.backupStep store c prior).run.Does (s.Phase store w prior name place) w
      (s.Ends store c w prior name place) := by
  obtain ⟨name, place, hcreate⟩ := store.does_create w s.artifact (prior.getD [])
  refine ⟨name, place, ?_⟩
  rw [backupStep]
  refine does_andThen.mpr (Task.does_attempt.mpr (hcreate.mono ?_ ?_))
  · rintro v (hv | ⟨hslot, k, hv⟩)
    · exact .before hv
    · exact .copying k ⟨hprior, hslot⟩ hv
  · rintro r v es ⟨rfl, ⟨refusal, rfl, hv⟩ | ⟨hslot, rfl, rfl⟩⟩
    · exact does_pure.mpr ⟨.before (World.alike_of_noting hv), .refused _ hv⟩
    · exact does_writeStep hw hp hquiet ⟨hprior, hslot⟩

theorem does_steps (hw : w.Sound) (hp : w.Steady s.path) (hquiet : w.Quiet) (store : Store)
    (c : Controller) : ∃ prior name place,
    (s.steps store c).run.Does (s.Phase store w prior name place) w
      (s.Ends store c w prior name place) := by
  have hread := does_priorContent w s.path
  rw [steps]
  -- The content that was read decides which backup the whole save is about.
  rcases (hread.ends).2.2 with ⟨prior, hok, hprior⟩ | ⟨f, herror⟩
  · obtain ⟨name, place, hbackup⟩ := does_backupStep hw hp hquiet store c hprior
    refine ⟨prior, name, place, does_andThen.mpr (Task.does_attemptFile.mpr ?_)⟩
    refine ⟨fun v hv => ?_, ?_⟩
    · rw [hread.through v hv]
      exact .before (.refl w)
    · rw [hok, hread.ends.1, hread.ends.2.1]
      exact hbackup
  · refine ⟨none, "", [], does_andThen.mpr (Task.does_attemptFile.mpr ?_)⟩
    refine ⟨fun v hv => ?_, ?_⟩
    · rw [hread.through v hv]
      exact .before (.refl w)
    · rw [herror, hread.ends.1, hread.ends.2.1]
      exact does_pure.mpr ⟨.before (.refl w), .refused _ (.inl rfl)⟩

/-- The course of a save, whatever the path, the content, the tree and the programs' answers. -/
theorem does_run (hw : w.Sound) (hp : w.Steady s.path) (hquiet : w.Quiet) (store : Store)
    (c : Controller) : ∃ prior name place,
    (s.run store c).run.Does (s.Phase store w prior name place) w
      (s.Ends store c w prior name place) := by
  obtain ⟨prior, name, place, hsteps⟩ := does_steps hw hp hquiet store c
  exact ⟨prior, name, place, Lock.does_hold _ (.before (.refl w)) (fun q => .looped q) hsteps⟩

end Save
end ConfigSteward
