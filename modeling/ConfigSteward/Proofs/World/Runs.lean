import ConfigSteward.Proofs.World.Endings
import Mathlib.Data.List.Induction

/-!
# Runs of calls

A run makes calls one after the other, each in the world that the one before it left. Where mishaps
may strike the calls there are many runs: `MayReach` holds of the worlds that they lead to.
-/
namespace ConfigSteward

open Plan

/-- Calls that are made step by step: the world as a step finds it and the plan of its call. -/
structure Calls (σ α : Type) where
  meets : σ → World → World
  plan : σ → Plan α

namespace Calls

variable {σ α : Type} {k : Calls σ α} {w u v : World} {st : σ} {steps : List σ} {a : α}

/-! ### Without mishaps -/

/-- What a step's call answers. -/
def reply (k : Calls σ α) (w : World) (st : σ) : α := ((k.plan st).run (k.meets st w)).1

def advance (k : Calls σ α) (w : World) (st : σ) : World := ((k.plan st).run (k.meets st w)).2

/-- The world after steps. -/
def after (k : Calls σ α) (w : World) (steps : List σ) : World := steps.foldl k.advance w

@[simp] theorem after_nil (k : Calls σ α) (w : World) : k.after w [] = w := rfl

@[simp] theorem after_cons (k : Calls σ α) (w : World) (st : σ) (steps : List σ) :
    k.after w (st :: steps) = k.after (k.advance w st) steps := rfl

@[simp] theorem after_append (k : Calls σ α) (w : World) (steps steps' : List σ) :
    k.after w (steps ++ steps') = k.after (k.after w steps) steps' := List.foldl_append

theorem after_concat (k : Calls σ α) (w : World) (steps : List σ) (st : σ) :
    k.after w (steps ++ [st]) = k.advance (k.after w steps) st := after_append k w steps [st]

/-- What every step of a run keeps is so after the run. -/
theorem after_invariant {I : World → Prop} (h : I w)
    (hstep : ∀ v, I v → ∀ st ∈ steps, I (k.advance v st)) : I (k.after w steps) := by
  induction steps generalizing w with
  | nil => exact h
  | cons st steps ih =>
    exact ih (hstep w h st List.mem_cons_self) fun v hv st' hst' =>
      hstep v hv st' (List.mem_cons_of_mem _ hst')

/-! ### With mishaps -/

/-- Which mishaps may strike a call that is made in a world. -/
abbrev Perils := World → Hazard → Prop

variable {perils : Perils}

/-- Amid mishaps the call of a step may be answered so and leave such a world. -/
def MayAnswer (k : Calls σ α) (perils : Perils) (w : World) (st : σ) (a : α) (v : World) : Prop :=
  ∃ hazard, perils (k.meets st w) hazard ∧ (k.plan st).MayEnd hazard (k.meets st w) a v

/-- Amid mishaps steps may lead to such a world. -/
inductive MayReach (k : Calls σ α) (perils : Perils) (w : World) : List σ → World → Prop where
  | start : MayReach k perils w [] w
  | step {steps : List σ} {st : σ} {u v : World} {a : α} (reached : MayReach k perils w steps u)
      (answered : k.MayAnswer perils u st a v) : MayReach k perils w (steps ++ [st]) v

theorem MayReach.invariant {I : World → Prop} (hreach : k.MayReach perils w steps v) (h : I w)
    (hstep : ∀ u v a, I u → ∀ st ∈ steps, k.MayAnswer perils u st a v → I v) : I v := by
  induction hreach with
  | start => exact h
  | step _ answered ih =>
    refine hstep _ _ _ (ih fun u v a hu st hst => ?_) _ (by simp) answered
    exact hstep u v a hu st (List.mem_append_left _ hst)

/-- The answer without mishaps is one of the answers. -/
theorem mayAnswer_reply (hperils : ∀ w, ∃ hazard, perils w hazard) (w : World) (st : σ) :
    k.MayAnswer perils w st (k.reply w st) (k.advance w st) := by
  obtain ⟨hazard, hhazard⟩ := hperils (k.meets st w)
  exact ⟨hazard, hhazard, (k.plan st).mayEnd_run (k.meets st w)⟩

/-- The run without mishaps is one of the runs. -/
theorem mayReach_after (hperils : ∀ w, ∃ hazard, perils w hazard) (w : World) (steps : List σ) :
    k.MayReach perils w steps (k.after w steps) := by
  induction steps using List.reverseRecOn with
  | nil => exact .start
  | append_singleton steps st ih =>
    rw [after_append]
    exact .step ih (mayAnswer_reply hperils _ _)

end Calls
end ConfigSteward
