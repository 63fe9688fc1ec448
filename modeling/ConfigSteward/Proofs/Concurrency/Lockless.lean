import ConfigSteward.Proofs.Concurrency.Holding
import ConfigSteward.Proofs.Site.Kinds

/-!
# What is done inside a hold takes no lock

Plans that neither take nor give back a lock are a kind that has files, programs and the readings of
the clock. So whatever a site does inside a hold is of this kind.
-/
namespace ConfigSteward.Plan.Lockless

variable {α β : Type}

private theorem question {r : Request} (h : r.Lockless) : (request r).Lockless := ⟨h, fun _ => trivial⟩

theorem bind {p : Plan α} {f : α → Plan β} (h : p.Lockless) (hf : ∀ a, (f a).Lockless) :
    (p >>= f).Lockless := by
  induction p with
  | done a => exact hf a
  | ask r next ih => exact ⟨h.1, fun reply => ih reply (h.2 reply)⟩

theorem acting : Kind.Acting fun _ p => p.Lockless where
  done _ := trivial
  bind := bind
  acts r hr := question (by cases r <;> trivial)

theorem working : Kind.Working fun _ p => p.Lockless where
  toActing := acting
  reading artifact :=
    acting.andThen (acting.lift (question (r := .clock) trivial)) fun _ =>
      acting.andThen (acting.lift (question (r := .latest artifact) trivial)) fun _ =>
        acting.andThen (acting.lift (question trivial)) fun _ => acting.pure _

end ConfigSteward.Plan.Lockless
