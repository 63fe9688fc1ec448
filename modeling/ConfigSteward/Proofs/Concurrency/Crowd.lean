import ConfigSteward.Proofs.World.Regular
import Mathlib.Logic.Function.Basic

/-!
# Plans that take turns

A crowd is a number of plans that share one world and its locks. A step is one request of one plan,
so between any two requests of a plan the others may make theirs. A lock is taken only while nobody
owns it; giving one back never waits.
-/
namespace ConfigSteward

/-- The request neither takes nor gives back a lock. -/
def Request.Lockless : Request → Prop
  | acquire _ | release _ => False
  | _ => True

/-- Plans that share a world, each with programs of its own. -/
structure Crowd (ι α : Type) where
  world : World
  programs : ι → Programs
  owner : Place → Option ι
  plan : ι → Plan α

/-- There is nothing left to ask for. -/
def Plan.Finished {α : Type} (p : Plan α) : Prop := ∃ a, p = .done a

namespace Crowd

variable {ι α : Type} [DecidableEq ι]

/-- The world as one of the plans finds it. -/
def seen (c : Crowd ι α) (i : ι) : World := { c.world with programs := c.programs i }

/-- The plan `i` makes its next request. -/
inductive Step (c : Crowd ι α) (i : ι) : Request → Crowd ι α → Prop where
  | acquire {lock : Place} {next : Unit → Plan α} (asks : c.plan i = .ask (.acquire lock) next)
      (free : c.owner lock = none) :
      Step c i (.acquire lock)
        { c with
          owner := Function.update c.owner lock (some i)
          plan := Function.update c.plan i (next ()) }
  | release {lock : Place} {next : Unit → Plan α} (asks : c.plan i = .ask (.release lock) next) :
      Step c i (.release lock)
        { c with
          owner := Function.update c.owner lock none
          plan := Function.update c.plan i (next ()) }
  | act {r : Request} {next : r.Reply → Plan α} (lockless : r.Lockless)
      (asks : c.plan i = .ask r next) :
      Step c i r
        { c with
          world := ((c.seen i).perform r).2
          plan := Function.update c.plan i (next ((c.seen i).perform r).1) }

/-- A run of the crowd, with who made which request. -/
inductive Runs (c : Crowd ι α) : List (ι × Request) → Crowd ι α → Prop where
  | start : Runs c [] c
  | step {events : List (ι × Request)} {c' c'' : Crowd ι α} {i : ι} {r : Request}
      (run : Runs c events c') (step : Step c' i r c'') : Runs c (events ++ [(i, r)]) c''

/-- A plan that waits for nobody can make its next request. -/
theorem exists_step {c : Crowd ι α} {i : ι} (hopen : ¬ (c.plan i).Finished)
    (hfree : ∀ lock next, c.plan i = .ask (.acquire lock) next → c.owner lock = none) :
    ∃ r c', c.Step i r c' := by
  cases hplan : c.plan i with
  | done a => exact absurd ⟨a, hplan⟩ hopen
  | ask r next =>
    cases r with
    | acquire lock => exact ⟨_, _, .acquire hplan (hfree lock next hplan)⟩
    | release lock => exact ⟨_, _, .release hplan⟩
    | _ =>
      refine ⟨_, _, .act ?_ hplan⟩
      trivial

/-! ### Crowds that keep a tree of files and folders -/

variable {c c' : Crowd ι α} {i : ι} {r : Request} {events : List (ι × Request)}

/-- No plan's programs touch a file. -/
def Quiet (c : Crowd ι α) : Prop := ∀ i, (c.seen i).Quiet

theorem Step.programs_eq (h : c.Step i r c') : c'.programs = c.programs := by
  cases h <;> rfl

theorem Runs.programs_eq (h : c.Runs events c') : c'.programs = c.programs := by
  induction h with
  | start => rfl
  | step _ step ih => exact step.programs_eq.trans ih

theorem Step.regular (h : c.Step i r c') (hc : c.world.Regular) (hquiet : c.Quiet) :
    c'.world.Regular ∧ c'.world.here = c.world.here := by
  cases h with
  | acquire | release => exact ⟨hc, rfl⟩
  | act =>
    have hseen : (c.seen i).Regular := hc.of_alike ⟨rfl, rfl⟩
    exact ⟨World.perform_regular hseen (hquiet i) r, (World.perform_frame _ r).1⟩

theorem Runs.regular (h : c.Runs events c') (hc : c.world.Regular) (hquiet : c.Quiet) :
    c'.world.Regular ∧ c'.world.here = c.world.here := by
  induction h with
  | start => exact ⟨hc, rfl⟩
  | @step events c' c'' i r run step ih =>
    have hquiet' : c'.Quiet := fun j ran args tree => by
      rw [seen, run.programs_eq]
      exact hquiet j ran args tree
    obtain ⟨hregular, hhere⟩ := step.regular ih.1 hquiet'
    exact ⟨hregular, hhere.trans ih.2⟩

end Crowd
end ConfigSteward
