import ConfigSteward.Proofs.Name.BackupName
import ConfigSteward.Proofs.Save.Answering
import ConfigSteward.Proofs.Save.Observing

/-!
# What an outcome tells

The outcome of a save tells whether the new content is in place, which program failed with which
output and under which name the prior content is backed up. All of it is so.
-/
namespace ConfigSteward

open World

namespace Execution

/-- The result of a program that was run, as a save sees it. -/
def result (e : Execution) : CommandResult := .seen e.reply

def Passed (e : Execution) : Prop := e.result.exitOk = true

end Execution

/-- A program was run with the arguments and passed. -/
def RanWell (es : List Execution) (args : List String) : Prop :=
  ∃ e ∈ es, e.args = args ∧ e.Passed

/-- Either every program passed and there is no output to show, or the last one failed, it alone,
and the output is its own. -/
inductive Blames : List Execution → Option String → Prop where
  | nobody {es : List Execution} (passed : ∀ e ∈ es, e.Passed) : Blames es none
  | last {es : List Execution} {e : Execution} (passed : ∀ e' ∈ es, e'.Passed)
      (failed : ¬ e.Passed) : Blames (es ++ [e]) (some e.result.output)

namespace Outcome

/-- The output of the program at fault, where there is one. -/
def faultOutput? (o : Outcome) : Option String :=
  match o.error with
  | some .validationFailed => some o.validationOutput
  | some .reloadFailed => some o.reloadOutput
  | some .timeout => some (if o.validated then o.reloadOutput else o.validationOutput)
  | some .backupFailed | some .writeFailed | none => none

/-- What the outcome of a save tells is so in the world that the save leaves and of the programs
that it ran. -/
structure Honest (o : Outcome) (s : Save) (store : Store) (c : Controller) (w v : World)
    (es : List Execution) : Prop where
  lasting : o.Lasting → v.read s.path = .ok s.content ∧ RanWell es (s.checkArgs c)
  undone : ¬ o.Lasting → Save.Holds v s.path (held w s.path)
  success : o.success = true ↔
    v.read s.path = .ok s.content ∧ RanWell es (s.checkArgs c) ∧ RanWell es c.reloadArgs
  late : o.error = some .timeout → o.rolledBack = !o.validated
  blames : o.success = false → Blames es o.faultOutput?
  backup : ∀ name, o.backup = some name →
    Save.BackedUp store w v name ((held w s.path).getD [])

end Outcome

namespace Save

variable {s : Save} {store : Store} {c : Controller} {w u v : World} {prior : Option Bytes}
  {name : String} {place goal : Place} {mode : Nat} {o : Outcome} {es : List Execution}

theorem not_ranWell_nil (args : List String) : ¬ RanWell [] args := by
  rintro ⟨e, he, -⟩
  simp at he

/-- The backup's name is not that of the file, so their places differ wherever the folders are. -/
theorem Backs.apart (backs : s.Backs store w prior name place) (hw : w.Sound)
    (hp : Replaceable w s.path) (hartifact : s.artifact = s.path.name) :
    Apart w s.path place := by
  intro q hq heq
  obtain ⟨r, -, -, -, hlive⟩ := World.Lands.split ⟨hq, hp.leaf q hq⟩ hw
  obtain ⟨folder, -, -, hplace⟩ := backs.slot.split hw
  obtain ⟨counter, -, hname⟩ := backs.slot.named
  have hsame : s.path.name = name :=
    List.singleton_inj.mp (List.append_inj_right' (hlive.symm.trans (heq.trans hplace)) rfl)
  rw [hname, ← hartifact] at hsame
  exact Name.writeBackup_ne _ _ _ hsame.symm

section
variable (s : Save) (name : String) (result result' : CommandResult)

private theorem success_afterReload :
    ((s.checked name result).afterReload result').success = result'.exitOk := by
  rcases hgood : result'.exitOk <;> rcases hlate : result'.timedOut <;>
    simp [Outcome.success, Outcome.afterReload, hgood, hlate]

private theorem rolledBack_afterReload :
    ((s.checked name result).afterReload result').rolledBack
      = !((s.checked name result).afterReload result').validated := by
  rcases hgood : result'.exitOk <;> rcases hlate : result'.timedOut <;>
    simp [Outcome.afterReload, hgood, hlate]

theorem backup_afterReload :
    ((s.checked name result).afterReload result').backup = some name := by
  rcases hgood : result'.exitOk <;> rcases hlate : result'.timedOut <;>
    simp [Outcome.afterReload, hgood, hlate]

private theorem faultOutput_afterReload (bad : result'.exitOk = false) :
    ((s.checked name result).afterReload result').faultOutput? = some result'.output := by
  rcases hlate : result'.timedOut <;>
    simp [Outcome.faultOutput?, Outcome.afterReload, bad, hlate]

end

/-- A save that failed before its check ran no program. -/
theorem honest_unchecked {e : Outcome.Error} (herror : o.error = some e)
    (he : e = .backupFailed ∨ e = .writeFailed) (hholds : Holds v s.path (held w s.path))
    (hbackup : ∀ name, o.backup = some name → BackedUp store w v name ((held w s.path).getD [])) :
    o.Honest s store c w v [] where
  lasting h := absurd h (not_lasting_of_error herror he)
  undone _ := hholds
  success := by
    simp [Outcome.success, herror, not_ranWell_nil]
  late h := by
    rcases he with rfl | rfl <;> simp [herror] at h
  blames _ := by
    have hnone : o.faultOutput? = none := by
      rcases he with rfl | rfl <;> simp [Outcome.faultOutput?, herror]
    rw [hnone]
    exact .nobody (by simp)
  backup := hbackup

section
variable (hw : w.Sound) (hp : Replaceable w s.path) (hartifact : s.artifact = s.path.name)
include hw hp hartifact

private theorem honest_unwritten {message : Option String} (backs : s.Backs store w prior name place)
    (hdug : (s.stored w prior place).Dug s.path.parent v) :
    Outcome.Honest { s.backedUp name with error := some .writeFailed, message := message }
      s store c w v [] := by
  have hfaces := dug_faces hp backs (backs.apart hw hp hartifact) hw hdug
  obtain ⟨hfile, hlands⟩ := backs.dug hdug
  refine honest_unchecked rfl (.inr rfl) (backs.prior.held_eq ▸ hfaces.holds) ?_
  rintro name' ⟨⟩
  rw [backs.prior.held_eq]
  exact ⟨place, hlands, backs.slot.vacant, hfile⟩

/-- A temporary file that stays is neither the file nor its backup. -/
theorem honest_littered {message : Option String} (backs : s.Backs store w prior name place)
    (hlittered : (s.stored w prior place).Littered s.path v) :
    Outcome.Honest { s.backedUp name with error := some .writeFailed, message := message }
      s store c w v [] := by
  obtain ⟨u, hdug, rfl | ⟨r, n, content, mode, vacant, rfl⟩⟩ := hlittered
  · exact honest_unwritten hw hp hartifact backs hdug
  have hfaces := temp_faces hp backs (backs.apart hw hp hartifact) hw hdug vacant content mode
  obtain ⟨hfile, hlands⟩ := backs.dug hdug
  refine honest_unchecked rfl (.inr rfl) (backs.prior.held_eq ▸ hfaces.holds) ?_
  rintro name' ⟨⟩
  have hset : u.tree.Sets (r ++ [tempName s.path.name n]) _
      (FileTask.tempIn u s.path r n content mode).tree := Tree.put_sets (by simp) _
  have hskeleton := hset.skeleton_eq (Tree.skeleton_of_vacant vacant)
    (Tree.skeleton_of_file hset.self)
  have hne : place ≠ r ++ [tempName s.path.name n] := by
    rintro rfl
    rw [hfile] at vacant
    cases vacant
  rw [backs.prior.held_eq]
  exact ⟨place, hlands.of_skeleton hskeleton rfl, backs.slot.vacant, (hset.other hne).trans hfile⟩

/-- A backup that was begun is not told of. -/
theorem honest_begun (message : Option String) (hprior : Prior w s.path prior)
    (safe : Name.isSafe s.artifact = true)
    (begins : store.Begins (w.noting s.artifact) s.artifact (w.readingFor s.artifact)
      (prior.getD []) 0 (Store.lastCounter + 1) v) :
    Outcome.Honest { artifact := s.artifact, error := some .backupFailed, message := message }
      s store c w v [] := by
  obtain ⟨name, place, k, hslot, rfl⟩ := begins.slot safe
  have backs : s.Backs store w prior name place := ⟨hprior, hslot⟩
  have hfaces := withFile_faces hp backs (backs.apart hw hp hartifact) ((prior.getD []).take k)
  have hfaces' : Faces ((w.noting s.artifact).withFile place ((prior.getD []).take k)) s.path place
      prior := hfaces.frame (fun _ => rfl) rfl fun _ _ => rfl
  refine honest_unchecked rfl (.inl rfl) (hprior.held_eq ▸ hfaces'.holds) ?_
  rintro name ⟨⟩

private theorem honest_rejected {result : CommandResult}
    (writes : s.Writes store w prior name place u goal mode)
    (hresult : CommandResult.seen ((s.written u goal mode).replyTo (s.checkArgs c)) = result)
    (bad : result.exitOk = false) :
    (s.rejected name result).Honest s store c w
      { (s.written u goal mode).hasRun (s.checkArgs c) with tree := u.tree.putBack goal mode prior }
      [⟨s.written u goal mode, s.checkArgs c,
        (s.written u goal mode).replyTo (s.checkArgs c)⟩] := by
  have happart := writes.backs.apart hw hp hartifact
  have hfailed : ¬ Execution.Passed ⟨s.written u goal mode, s.checkArgs c,
      (s.written u goal mode).replyTo (s.checkArgs c)⟩ := by
    simp [Execution.Passed, Execution.result, hresult, bad]
  have hran (args : List String) : ¬ RanWell [⟨s.written u goal mode, s.checkArgs c,
      (s.written u goal mode).replyTo (s.checkArgs c)⟩] args := by
    rintro ⟨e, he, -, hpassed⟩
    obtain rfl := List.mem_singleton.mp he
    exact hfailed hpassed
  refine ⟨fun h => absurd h (not_lasting_rejected s name result), fun _ => ?_, ?_, fun _ => rfl,
    fun _ => ?_, ?_⟩
  · rw [writes.backs.prior.held_eq]
    exact (restored_faces hp writes.backs happart hw writes.replaces rfl).holds
  · simp [Outcome.success, hran]
  · have hblames := Blames.last (List.forall_mem_nil Execution.Passed) hfailed
    rw [Execution.result, hresult] at hblames
    rcases hlate : result.timedOut <;>
      simpa [Outcome.faultOutput?, hlate] using hblames
  · rintro name' ⟨⟩
    rw [writes.backs.prior.held_eq]
    exact restored_backedUp hp writes.backs happart hw writes.replaces rfl

private theorem honest_reloaded {result result' : CommandResult}
    (writes : s.Writes store w prior name place u goal mode)
    (good : result.exitOk = true)
    (hresult' : CommandResult.seen
      (((s.written u goal mode).hasRun (s.checkArgs c)).replyTo c.reloadArgs) = result') :
    ((s.checked name result).afterReload result').Honest s store c w
      (((s.written u goal mode).hasRun (s.checkArgs c)).hasRun c.reloadArgs)
      [⟨s.written u goal mode, s.checkArgs c, .ok result⟩,
        ⟨(s.written u goal mode).hasRun (s.checkArgs c), c.reloadArgs,
          ((s.written u goal mode).hasRun (s.checkArgs c)).replyTo c.reloadArgs⟩] := by
  have halike : (s.written u goal mode).Alike
      (((s.written u goal mode).hasRun (s.checkArgs c)).hasRun c.reloadArgs) := ⟨rfl, rfl⟩
  have hsaved := written_saved hp writes.backs (writes.backs.apart hw hp hartifact) hw
    writes.replaces
  have hread := (halike.read_eq s.path).trans hsaved.read_eq
  have hpassed : Execution.Passed ⟨s.written u goal mode, s.checkArgs c, .ok result⟩ := good
  generalize hcheck : Execution.mk (s.written u goal mode) (s.checkArgs c) (.ok result) = check
    at hpassed
  generalize hre : Execution.mk ((s.written u goal mode).hasRun (s.checkArgs c)) c.reloadArgs
    (((s.written u goal mode).hasRun (s.checkArgs c)).replyTo c.reloadArgs) = re
  have hreResult : re.result = result' := by rw [← hre, Execution.result, hresult']
  have hchecked : RanWell [check, re] (s.checkArgs c) :=
    ⟨check, by simp, by rw [← hcheck], hpassed⟩
  have hreloaded : RanWell [check, re] c.reloadArgs ↔ result'.exitOk = true := by
    constructor
    · rintro ⟨e, he, hargs, hgood⟩
      rcases List.mem_pair.mp he with rfl | rfl
      · rw [← hcheck] at hargs
        exact absurd hargs (checkArgs_ne_reloadArgs s c)
      · rwa [Execution.Passed, hreResult] at hgood
    · intro hgood
      exact ⟨re, by simp, by rw [← hre], by rwa [Execution.Passed, hreResult]⟩
  refine ⟨fun _ => ⟨hread, hchecked⟩, fun h => absurd (lasting_afterReload s name result result') h,
    ?_, fun hlate => ?_, fun hfailed => ?_, fun name' hname => ?_⟩
  · rw [and_iff_right hread, and_iff_right hchecked, hreloaded, success_afterReload]
  · exact rolledBack_afterReload s name result result'
  · rw [success_afterReload] at hfailed
    have hbad : ¬ re.Passed := by simp [Execution.Passed, hreResult, hfailed]
    have hblames := Blames.last (fun e he => List.mem_singleton.mp he ▸ hpassed) hbad
    rwa [hreResult, ← faultOutput_afterReload s name result result' hfailed] at hblames
  · rw [backup_afterReload] at hname
    cases hname
    rw [writes.backs.prior.held_eq]
    exact .of_alike ⟨place, hsaved.backup, writes.backs.slot.vacant, hsaved.backupFile⟩ halike

end

/-- What the outcome of a save tells is so. -/
theorem Ends.honest (hw : w.Sound) (hp : Replaceable w s.path) (hartifact : s.artifact = s.path.name)
    (hreload : s.reload = true) (h : s.Ends store c w prior name place (.ok o) v es) :
    o.Honest s store c w v es := by
  cases h with
  | refused message hv =>
    refine honest_unchecked rfl (.inl rfl) (hp.holds.of_alike (alike_of_noting hv)) ?_
    rintro name ⟨⟩
  | unwritten message backs hdug => exact honest_unwritten hw hp hartifact backs hdug
  | rejected writes hresult bad => exact honest_rejected hw hp hartifact writes hresult bad
  | accepted writes hresult good still =>
    rw [hreload] at still
    cases still
  | reloaded writes _ good hresult' =>
    exact honest_reloaded hw hp hartifact writes good hresult'

/-- What the outcome of a save tells is so whatever went wrong before the check. -/
theorem Meets.honest {hazard : Hazard} (hw : w.Sound) (hp : Replaceable w s.path)
    (hartifact : s.artifact = s.path.name) (hreload : s.reload = true)
    (h : s.Meets hazard store c w (.ok o) v es) : o.Honest s store c w v es := by
  cases h with
  | well ends => exact ends.honest hw hp hartifact hreload
  | begun message hprior safe begins =>
    exact honest_begun hw hp hartifact message hprior safe begins
  | littered message backs _ hlittered => exact honest_littered hw hp hartifact backs hlittered

end Save
end ConfigSteward
