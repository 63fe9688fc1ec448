import ConfigSteward.Proofs.World.Kinds

/-!
# Plans that change nothing

A plan that only asks about files ends in the world that it starts in, whatever the answers are.
-/
namespace ConfigSteward.Plan

variable {α : Type}

/-- The plan ends in the world that it starts in. -/
def Still (p : Plan α) : Prop := ∀ w, (p.run w).2 = w

theorem Still.asking : Kind.Asking fun _ p => p.Still where
  done _ _ := rfl
  bind h hf w := by rw [run_bind, hf, h]
  asks r hr w := by cases r <;> first | rfl | exact hr.elim

end ConfigSteward.Plan
