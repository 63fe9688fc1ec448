import ConfigSteward.World.Request

/-! # Plans

A plan is a tree of requests: it is done, or it asks for something and goes on as the reply tells.
Plans compose as a monad whose laws hold as equations. `Task` adds failures that end the plan.
-/
namespace ConfigSteward

inductive Plan (α : Type) : Type where
  | done (a : α)
  | ask (r : Request) (next : r.Reply → Plan α)

namespace Plan

variable {α β γ : Type}

def bind (p : Plan α) (f : α → Plan β) : Plan β :=
  match p with
  | done a => f a
  | ask r next => ask r fun reply => (next reply).bind f

instance : Monad Plan where
  pure := done
  bind := bind

@[simp] theorem pure_eq (a : α) : (pure a : Plan α) = done a := rfl

@[simp] theorem done_bind (a : α) (f : α → Plan β) : (done a >>= f) = f a := rfl

@[simp] theorem ask_bind (r : Request) (next : r.Reply → Plan α) (f : α → Plan β) :
    (ask r next >>= f) = ask r fun reply => next reply >>= f := rfl

theorem bind_done (p : Plan α) : (p >>= done) = p := by
  induction p with
  | done a => rfl
  | ask r next ih => exact congrArg (ask r) (funext ih)

theorem bind_assoc (p : Plan α) (f : α → Plan β) (g : β → Plan γ) :
    (p >>= f >>= g) = (p >>= fun a => f a >>= g) := by
  induction p with
  | done a => rfl
  | ask r next ih => exact congrArg (ask r) (funext ih)

instance : LawfulMonad Plan := LawfulMonad.mk' Plan bind_done (fun _ _ => rfl) bind_assoc

/-- The plan that makes one request and ends with its reply. -/
def request (r : Request) : Plan r.Reply := ask r done

end Plan

/-- A plan that may end in a failure. -/
abbrev Task := ExceptT Failure Plan

namespace Task

variable {α : Type}

/-- Make one request whose reply cannot fail. -/
def request (r : Request) : Task r.Reply := ExceptT.lift (Plan.request r)

def refuse (r : Refusal) : Task α := throw (.refused r)

/-- Run a task and then `after`, whether or not the task failed. -/
def andThen (task : Task α) (after : Plan Unit) : Task α :=
  ExceptT.mk do
    let result ← task.run
    after
    return result

end Task
end ConfigSteward
