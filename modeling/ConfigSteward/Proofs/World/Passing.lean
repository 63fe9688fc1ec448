import ConfigSteward.World.Files
import ConfigSteward.World.Perform

/-!
# What a plan passes through

`Passes` lists every world that an observer may find while a plan is carried out, the worlds in the
middle of writing a file among them; `executions` lists the programs it runs. `Does` speaks about
both and about how the plan ends, and composes like the plans themselves.
-/
namespace ConfigSteward

/-- A program that was run: the world that it was run in, its arguments and what came back. -/
structure Execution where
  before : World
  args : List String
  reply : Except Failure CommandResult

namespace World

/-- The worlds in the middle of a request: a file that is being filled may hold no more than the
first part of its content. -/
def Torn (w : World) : Request → World → Prop
  | .fill p bytes, v => ∃ k, v = (w.perform (.fill p (bytes.take k))).2
  | _, _ => False

def executed (w : World) : Request → List Execution
  | .run args => [⟨w, args, (w.perform (.run args)).1⟩]
  | _ => []

end World

namespace Plan

variable {α β : Type} {I J : World → Prop} {w v : World}
  {Q R : α → World → List Execution → Prop}

/-- The worlds that an observer may find while a plan is carried out, from the one it starts in to
the one it ends in. -/
inductive Passes : Plan α → World → World → Prop where
  | here {p : Plan α} {w : World} : Passes p w w
  | torn {r : Request} {next : r.Reply → Plan α} {w v : World} (h : w.Torn r v) :
      Passes (ask r next) w v
  | later {r : Request} {next : r.Reply → Plan α} {w v : World}
      (h : Passes (next (w.perform r).1) (w.perform r).2 v) : Passes (ask r next) w v

/-- The world after the first requests of a plan. -/
def worldAfter : Nat → Plan α → World → World
  | 0, _, w => w
  | _ + 1, done _, w => w
  | n + 1, ask r next, w => worldAfter n (next (w.perform r).1) (w.perform r).2

/-- The programs that a plan runs, in order. -/
def executions : Plan α → World → List Execution
  | done _, _ => []
  | ask r next, w => w.executed r ++ (next (w.perform r).1).executions (w.perform r).2

/-- The plan passes only through worlds that satisfy `I` and ends as `Q` says of its result, of the
world it leaves and of the programs it ran. -/
structure Does (I : World → Prop) (p : Plan α) (w : World)
    (Q : α → World → List Execution → Prop) : Prop where
  through : ∀ v, p.Passes w v → I v
  ends : Q (p.run w).1 (p.run w).2 (p.executions w)

@[simp] theorem passes_done {a : α} : (done a).Passes w v ↔ v = w := by
  constructor
  · intro h
    cases h
    rfl
  · rintro rfl
    exact .here

theorem passes_ask {r : Request} {next : r.Reply → Plan α} :
    (ask r next).Passes w v ↔
      v = w ∨ w.Torn r v ∨ (next (w.perform r).1).Passes (w.perform r).2 v := by
  constructor
  · intro h
    cases h with
    | here => exact .inl rfl
    | torn h => exact .inr (.inl h)
    | later h => exact .inr (.inr h)
  · rintro (rfl | h | h)
    · exact .here
    · exact .torn h
    · exact .later h

theorem passes_end (p : Plan α) (w : World) : p.Passes w (p.run w).2 := by
  induction p generalizing w with
  | done a => exact .here
  | ask r next ih => exact .later (ih _ _)

theorem passes_worldAfter (n : Nat) (p : Plan α) (w : World) : p.Passes w (worldAfter n p w) := by
  induction n generalizing p w with
  | zero => exact .here
  | succ n ih =>
    cases p with
    | done a => exact .here
    | ask r next => exact .later (ih _ _)

theorem passes_bind {p : Plan α} {f : α → Plan β} :
    (p >>= f).Passes w v ↔ p.Passes w v ∨ (f (p.run w).1).Passes (p.run w).2 v := by
  induction p generalizing w with
  | done a =>
    rw [done_bind, passes_done, run_done]
    constructor
    · exact .inr
    · rintro (rfl | h)
      · exact .here
      · exact h
  | ask r next ih =>
    rw [ask_bind, passes_ask, passes_ask, ih, run_ask, or_assoc, or_assoc]

@[simp] theorem executions_bind (p : Plan α) (f : α → Plan β) (w : World) :
    (p >>= f).executions w = p.executions w ++ (f (p.run w).1).executions (p.run w).2 := by
  induction p generalizing w with
  | done a => rfl
  | ask r next ih =>
    rw [ask_bind, executions, executions, ih, List.append_assoc, run_ask]

namespace Does

theorem mono {p : Plan α} (h : p.Does I w Q) (hI : ∀ v, I v → J v)
    (hQ : ∀ a v es, Q a v es → R a v es) : p.Does J w R :=
  ⟨fun v hv => hI v (h.through v hv), hQ _ _ _ h.ends⟩

theorem imp {p : Plan α} (h : p.Does I w Q) (hQ : ∀ a v es, I v → Q a v es → R a v es) :
    p.Does I w R :=
  ⟨h.through, hQ _ _ _ (h.through _ (passes_end p w)) h.ends⟩

theorem and {p : Plan α} (h : p.Does I w Q) (h' : p.Does J w R) :
    p.Does (fun v => I v ∧ J v) w fun a v es => Q a v es ∧ R a v es :=
  ⟨fun v hv => ⟨h.through v hv, h'.through v hv⟩, h.ends, h'.ends⟩

end Does

theorem does_of_run {p : Plan α} {a : α} (h : p.run w = (a, v)) :
    p.Does (fun _ => True) w fun b u _ => b = a ∧ u = v :=
  ⟨fun _ _ => trivial, by rw [h], by rw [h]⟩

@[simp] theorem does_done {a : α} : (done a).Does I w Q ↔ I w ∧ Q a w [] := by
  constructor
  · intro h
    exact ⟨h.through w .here, h.ends⟩
  · intro h
    refine ⟨fun v hv => ?_, h.2⟩
    rw [passes_done.mp hv]
    exact h.1

theorem does_bind {Q : β → World → List Execution → Prop} {p : Plan α} {f : α → Plan β} :
    (p >>= f).Does I w Q ↔
      p.Does I w fun a v es => (f a).Does I v fun b u es' => Q b u (es ++ es') := by
  constructor
  · intro h
    refine ⟨fun v hv => h.through v (passes_bind.mpr (.inl hv)),
      ⟨fun v hv => h.through v (passes_bind.mpr (.inr hv)), ?_⟩⟩
    have hends := h.ends
    rwa [executions_bind, run_bind] at hends
  · intro h
    refine ⟨fun v hv => ?_, ?_⟩
    · rcases passes_bind.mp hv with hv | hv
      · exact h.through v hv
      · exact h.ends.through v hv
    · rw [executions_bind, run_bind]
      exact h.ends.ends

theorem does_request {r : Request} {Q : r.Reply → World → List Execution → Prop} :
    (request r).Does I w Q ↔
      I w ∧ (∀ v, w.Torn r v → I v) ∧ I (w.perform r).2 ∧
        Q (w.perform r).1 (w.perform r).2 (w.executed r) := by
  constructor
  · intro h
    refine ⟨h.through w .here, fun v hv => h.through v (.torn hv), h.through _ (passes_end _ _), ?_⟩
    simpa [request, executions] using h.ends
  · rintro ⟨hw, htorn, hafter, hQ⟩
    refine ⟨fun v hv => ?_, by simpa [request, executions] using hQ⟩
    rcases passes_ask.mp hv with rfl | hv | hv
    · exact hw
    · exact htorn v hv
    · rw [passes_done.mp hv]
      exact hafter

/-! ### Plans that may fail -/

section
variable {ε : Type} {Q : Except ε β → World → List Execution → Prop}

@[simp] theorem does_pure {b : β} :
    (pure b : ExceptT ε Plan β).run.Does I w Q ↔ I w ∧ Q (.ok b) w [] := does_done

@[simp] theorem does_throw {e : ε} :
    (throw e : ExceptT ε Plan β).run.Does I w Q ↔ I w ∧ Q (.error e) w [] := does_done

theorem does_andThen {t : ExceptT ε Plan α} {f : α → ExceptT ε Plan β} :
    (t >>= f).run.Does I w Q ↔ t.run.Does I w fun r v es =>
      match r with
      | .ok a => (f a).run.Does I v fun b u es' => Q b u (es ++ es')
      | .error e => I v ∧ Q (.error e) v es := by
  rw [ExceptT.run_bind, does_bind]
  constructor
  · intro h
    refine h.imp fun r v es _ hr => ?_
    cases r with
    | ok a => exact hr
    | error e => simpa using hr
  · intro h
    refine h.imp fun r v es _ hr => ?_
    cases r with
    | ok a => exact hr
    | error e => simpa using hr

theorem does_lift {p : Plan β} :
    (ExceptT.lift p : ExceptT ε Plan β).run.Does I w Q ↔ p.Does I w fun b => Q (.ok b) := by
  rw [ExceptT.run_lift, map_eq_pure_bind, does_bind]
  constructor
  · intro h
    exact h.imp fun b v es _ hb => by simpa using (does_done.mp hb).2
  · intro h
    exact h.imp fun b v es hv hb => does_done.mpr ⟨hv, by simpa using hb⟩

end
end Plan

/-- A request that changes nothing, is not torn and runs no program. -/
theorem Plan.does_question {r : Request} {I : World → Prop} {w : World}
    {Q : r.Reply → World → List Execution → Prop} (hsame : (w.perform r).2 = w)
    (htorn : ∀ v, ¬ w.Torn r v) (hrun : w.executed r = []) :
    (request r).Does I w Q ↔ I w ∧ Q (w.perform r).1 w [] := by
  rw [does_request, hsame, hrun]
  constructor
  · rintro ⟨hw, _, _, hQ⟩
    exact ⟨hw, hQ⟩
  · rintro ⟨hw, hQ⟩
    exact ⟨hw, fun v hv => absurd hv (htorn v), hw, hQ⟩

/-- A request that is not torn and runs no program. -/
theorem Plan.does_change {r : Request} {I : World → Prop} {w : World}
    {Q : r.Reply → World → List Execution → Prop} (htorn : ∀ v, ¬ w.Torn r v)
    (hrun : w.executed r = []) :
    (request r).Does I w Q ↔ I w ∧ I (w.perform r).2 ∧ Q (w.perform r).1 (w.perform r).2 [] := by
  rw [does_request, hrun]
  constructor
  · rintro ⟨hw, _, hQ⟩
    exact ⟨hw, hQ⟩
  · rintro ⟨hw, hQ⟩
    exact ⟨hw, fun v hv => absurd hv (htorn v), hQ⟩

end ConfigSteward
