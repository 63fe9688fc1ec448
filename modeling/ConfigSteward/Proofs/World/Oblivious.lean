import ConfigSteward.Proofs.Backup.Creation
import ConfigSteward.Proofs.Site.Kinds
import ConfigSteward.Proofs.Time.Order
import ConfigSteward.Proofs.World.Regular

/-!
# Plans to which it does not matter what was noted

Readings are noted so that the stamps of backups do not run backwards. While the clock does not run
backwards either, no reading noted is ahead of it, and the next reading is the clock's own. Nothing
else asks for what was noted.
-/
namespace ConfigSteward

open Plan

namespace World

variable {w v : World} {artifact : String} {r : Request}

/-- Every reading noted was the clock's, now or earlier. -/
def Timely (w : World) : Prop :=
  ∀ e ∈ w.noted, ∃ n ≤ w.clock / 1000000, e.2 = Civil.ofSeconds n

theorem timely_of_fresh (h : w.noted = []) : w.Timely := by
  intro e he
  simp [h] at he

theorem Timely.readingFor (h : w.Timely) (artifact : String) :
    w.readingFor artifact = Civil.ofSeconds (w.clock / 1000000) := by
  unfold World.readingFor
  split
  · next last hlast =>
    obtain ⟨e, he, rfl⟩ := Option.map_eq_some_iff.mp hlast
    obtain ⟨n, hn, heq⟩ := h e (List.mem_of_find?_eq_some he)
    have hlate : (Civil.ofSeconds n).number ≤ (Civil.ofSeconds (w.clock / 1000000)).number :=
      Civil.ofSeconds_mono hn
    rw [Civil.latest, heq, if_neg (Nat.not_lt.mpr hlate)]
  · rfl

theorem Timely.noting (h : w.Timely) (artifact : String) : (w.noting artifact).Timely := by
  intro e he
  rcases List.mem_cons.mp he with rfl | he
  · exact ⟨_, Nat.le_refl _, h.readingFor artifact⟩
  · exact h e (List.mem_filter.mp he).1

theorem Timely.of_clock (h : w.Timely) (hnoted : v.noted = w.noted) (hclock : w.clock ≤ v.clock) :
    v.Timely := by
  intro e he
  obtain ⟨n, hn, heq⟩ := h e (hnoted ▸ he)
  exact ⟨n, Nat.le_trans hn (Nat.div_le_div_right hclock), heq⟩

/-- The worlds differ in the readings noted at most, and no reading is ahead of the clock. -/
structure Agrees (w v : World) : Prop where
  apart : { w with noted := v.noted } = v
  timely : w.Timely
  timely' : v.Timely

theorem Timely.agrees (h : w.Timely) : w.Agrees w := ⟨rfl, h, h⟩

/-! ### What requests see of the readings noted -/

section
variable (w : World) (noted : List (String × Civil))

private theorem add_noted (p : Path) (node : Node) :
    { w with noted }.add p node = ((w.add p node).1, { (w.add p node).2 with noted }) := by
  have hvacancy : { w with noted }.vacancy p = w.vacancy p := rfl
  rw [add, add, hvacancy]
  cases w.vacancy p <;> rfl

private theorem freeTemp_noted (folder : Path) (base : String) (n tries : Nat) :
    { w with noted }.freeTemp folder base n tries = w.freeTemp folder base n tries := by
  induction tries generalizing n with
  | zero => rfl
  | succ tries ih =>
    rw [freeTemp, freeTemp, ih]
    rfl

private theorem createTemp_noted (folder : Path) (base : String) :
    { w with noted }.createTemp folder base
      = ((w.createTemp folder base).1, { (w.createTemp folder base).2 with noted }) := by
  have htemp : { w with noted }.freeTemp ({ w with noted }.tempFolder folder) base
      (w.draw ({ w with noted }.tempFolder folder) base) { w with noted }.tempTries
        = w.freeTemp (w.tempFolder folder) base (w.draw (w.tempFolder folder) base) w.tempTries :=
    w.freeTemp_noted noted ..
  unfold createTemp
  dsimp only
  rw [htemp, add_noted]
  rcases w.add _ _ with ⟨_ | _, u⟩ <;> rfl

/-- A request about files or programs takes no notice of what was noted and notes nothing. -/
theorem perform_noted (hr : r.Acts) :
    { w with noted }.perform r = ((w.perform r).1, { (w.perform r).2 with noted }) := by
  cases r with
  | read | look | list | resolve | run => rfl
  | clock | latest | note | acquire | release => exact hr.elim
  | create p | makeFolder p => exact w.add_noted noted p _
  | createTemp folder base => exact w.createTemp_noted noted folder base
  | fill p bytes | setMode p mode =>
    simp only [perform, World.alter]
    repeat' split
    all_goals simp_all
  | move source target =>
    simp only [perform, World.move]
    repeat' split
    all_goals simp_all
  | unlink p =>
    simp only [perform, World.unlink]
    repeat' split
    all_goals simp_all

end

theorem perform_keeps_noted (hr : r.Acts) (w : World) : (w.perform r).2.noted = w.noted := by
  have h := w.perform_noted w.noted hr
  exact congrArg (fun reply => reply.2.noted) h

namespace Agrees

theorem perform (h : w.Agrees v) (hr : r.Acts) :
    (v.perform r).1 = (w.perform r).1 ∧ (w.perform r).2.Agrees (v.perform r).2 := by
  have htimely {u : World} (hu : u.Timely) : (u.perform r).2.Timely :=
    hu.of_clock (perform_keeps_noted hr u) (Nat.le_of_eq (u.perform_frame r).2.1.symm)
  have hv : v.perform r = ((w.perform r).1, { (w.perform r).2 with noted := v.noted }) := by
    conv_lhs => rw [← h.apart]
    exact w.perform_noted v.noted hr
  refine ⟨by rw [hv], ?_, htimely h.timely, htimely h.timely'⟩
  rw [perform_keeps_noted hr v, hv]

theorem noting (h : w.Agrees v) (artifact : String) :
    (w.noting artifact).Agrees (v.noting artifact) := by
  refine ⟨?_, h.timely.noting artifact, h.timely'.noting artifact⟩
  have hv := h.apart
  rw [← hv]
  rfl

theorem clock_eq (h : w.Agrees v) : v.clock = w.clock := by rw [← h.apart]

theorem tree_eq (h : w.Agrees v) : v.tree = w.tree := by rw [← h.apart]

end Agrees
end World

/-- From worlds that agree the plan comes to one result, and to worlds that agree. -/
def Plan.Oblivious {α : Type} (p : Plan α) : Prop :=
  ∀ w v : World, w.Agrees v → (p.run v).1 = (p.run w).1 ∧ (p.run w).2.Agrees (p.run v).2

namespace Plan.Oblivious

theorem acting : Kind.Acting fun _ p => p.Oblivious where
  done _ _ _ h := ⟨rfl, h⟩
  bind hp hf w v h := by
    obtain ⟨hsame, hagrees⟩ := hp w v h
    rw [run_bind, run_bind, hsame]
    exact hf _ _ _ hagrees
  acts r hr w v h := h.perform hr

theorem working : Kind.Working fun _ p => p.Oblivious where
  toActing := acting
  reading artifact w v h := by
    obtain ⟨hresult, hworld, -⟩ := (Store.does_nextReading w artifact).ends
    obtain ⟨hresult', hworld', -⟩ := (Store.does_nextReading v artifact).ends
    refine ⟨?_, ?_⟩
    · rw [hresult, hresult', h.timely.readingFor, h.timely'.readingFor, h.clock_eq]
    · rw [hworld, hworld']
      exact h.noting artifact

theorem locking : Kind.Locking fun _ p => p.Oblivious where
  toComposes := acting.toComposes
  acquires _ _ _ h := ⟨rfl, h⟩
  releases _ _ _ h := ⟨rfl, h⟩

end Plan.Oblivious
end ConfigSteward
