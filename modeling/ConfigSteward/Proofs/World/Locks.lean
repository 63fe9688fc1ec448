import ConfigSteward.Lock
import ConfigSteward.Proofs.World.Calls

/-!
# Tasks under locks

Taking and giving back locks changes no file and runs no program, so a task that holds locks does
what it does without them, unless a link leads back to itself.
-/
namespace ConfigSteward

open Plan

variable {α : Type} {I : World → Prop} {w : World} {p : Path}

/-- Resolving gives the place that a path stands for, or fails where a link leads back to itself. -/
theorem Task.does_resolve_eq {Q : Except Failure Place → World → List Execution → Prop} (hw : I w)
    (hplace : ∀ place, w.tree.resolve w.here p = .ok place → Q (.ok place) w [])
    (hloop : ∀ place, w.tree.resolve w.here p = .error place → Q (.error (.linkLoop place)) w []) :
    (resolve p).run.Does I w Q := by
  rw [resolve]
  refine does_andThen.mpr (does_request.mpr
    ((does_question (r := .resolve p) rfl (fun _ h => h) rfl).mpr ⟨hw, ?_⟩))
  have hanswer : (w.perform (.resolve p)).1 = w.tree.resolve w.here p := rfl
  rw [hanswer]
  rcases h : w.tree.resolve w.here p with place | place
  · exact does_throw.mpr ⟨hw, hloop place h⟩
  · exact does_pure.mpr ⟨hw, hplace place h⟩

theorem Task.does_resolve (w : World) (p : Path) :
    (resolve p).run.Does (· = w) w fun r v es => v = w ∧ es = [] ∧
      ((∃ place, r = .ok place ∧ w.tree.resolve w.here p = .ok place) ∨
        ∃ place, r = .error (.linkLoop place)) := by
  refine does_resolve_eq rfl (fun place h => ?_) fun place _ => ?_
  · exact ⟨rfl, rfl, .inl ⟨place, rfl, h⟩⟩
  · exact ⟨rfl, rfl, .inr ⟨place, rfl⟩⟩

theorem Task.does_then {task : Task α} {after : Plan Unit}
    {Q : Except Failure α → World → List Execution → Prop} :
    (task.andThen after).run.Does I w Q ↔
      task.run.Does I w fun r v es => after.Does I v fun _ u es' => Q r u (es ++ es') := by
  rw [andThen, ExceptT.run_mk, does_bind]
  constructor
  · intro h
    refine h.imp fun r v es _ hr => ?_
    refine (does_bind.mp hr).imp fun _ u es' _ hdone => ?_
    simpa using (does_done.mp hdone).2
  · intro h
    refine h.imp fun r v es _ hr => does_bind.mpr (hr.imp fun _ u es' hu hQ => ?_)
    exact does_done.mpr ⟨hu, by simpa using hQ⟩

theorem Task.andThen_run (body : Task α) (after : Plan Unit) :
    (body.andThen after).run = body.run >>= fun result => after >>= fun _ => .done result := rfl

namespace Lock

/-! ### Holding, taken apart -/

theorem hold_run (paths : List Path) (body : Task α) :
    (hold paths body).run = (places paths).run >>= fun
      | .ok locks => acquireAll (inOrder locks) >>= fun _ =>
          (body.andThen (releaseAll (inOrder locks).reverse)).run
      | .error failure => .done (.error failure) := by
  rw [hold, ExceptT.run_bind]
  congr 1
  funext result
  cases result with
  | ok locks =>
    change (ExceptT.lift (acquireAll (inOrder locks)) >>= fun _ =>
      body.andThen (releaseAll (inOrder locks).reverse) : Task α).run = _
    rw [ExceptT.run_bind_lift]
  | error failure => rfl

theorem inOrder_singleton (lock : Place) : inOrder [lock] = [lock] := by
  simp [inOrder, List.eraseDups_cons]

/-- Holding one path: find its place, take the lock, do the body, give the lock back. -/
theorem hold_singleton_run (p : Path) (body : Task α) :
    (hold [p] body).run = .ask (.resolve p) fun
      | .ok lock => .ask (.acquire lock) fun _ => (body.andThen (releaseAll [lock])).run
      | .error place => .done (.error (.linkLoop place)) := by
  rw [hold_run]
  refine congrArg (Plan.ask (.resolve p)) (funext fun reply => ?_)
  cases reply with
  | ok lock =>
    change acquireAll (inOrder [lock]) >>= (fun _ =>
      (body.andThen (releaseAll (inOrder [lock]).reverse)).run) = _
    rw [inOrder_singleton]
    rfl
  | error place => rfl

/-! ### What holding does -/

theorem does_places (w : World) (paths : List Path) :
    (places paths).run.Does (· = w) w fun r v es => v = w ∧ es = [] ∧
      ((∃ ps, r = .ok ps) ∨ ∃ p ∈ paths, ∃ place,
        w.tree.resolve w.here p = .error place ∧ r = .error (.linkLoop place)) := by
  induction paths with
  | nil => exact does_pure.mpr ⟨rfl, rfl, rfl, .inl ⟨[], rfl⟩⟩
  | cons p paths ih =>
    rw [places]
    refine does_andThen.mpr (Task.does_resolve_eq rfl (fun place _ => ?_) fun place hplace => ?_)
    · refine does_andThen.mpr (ih.mono (fun _ hv => hv) ?_)
      rintro r v es ⟨rfl, rfl, ⟨ps, rfl⟩ | ⟨q, hq, place', hplace', rfl⟩⟩
      · exact does_pure.mpr ⟨rfl, rfl, rfl, .inl ⟨_, rfl⟩⟩
      · exact ⟨rfl, rfl, rfl, .inr ⟨q, List.mem_cons_of_mem p hq, place', hplace', rfl⟩⟩
    · exact ⟨rfl, rfl, rfl, .inr ⟨p, List.mem_cons_self, place, hplace, rfl⟩⟩

theorem does_acquireAll (w : World) (ps : List Place) :
    (acquireAll ps).Does (· = w) w fun _ v es => v = w ∧ es = [] := by
  induction ps with
  | nil => exact does_done.mpr ⟨rfl, rfl, rfl⟩
  | cons p ps ih =>
    rw [acquireAll]
    exact does_bind.mpr ((does_question (r := .acquire p) rfl (fun _ h => h) rfl).mpr ⟨rfl, ih⟩)

theorem does_releaseAll (w : World) (ps : List Place) :
    (releaseAll ps).Does (· = w) w fun _ v es => v = w ∧ es = [] := by
  induction ps with
  | nil => exact does_done.mpr ⟨rfl, rfl, rfl⟩
  | cons p ps ih =>
    rw [releaseAll]
    exact does_bind.mpr ((does_question (r := .release p) rfl (fun _ h => h) rfl).mpr ⟨rfl, ih⟩)

/-- A task that holds locks does what it does without them, or a link leads back to itself. -/
theorem does_hold_or {task : Task α} {Q : Except Failure α → World → List Execution → Prop}
    (paths : List Path) (hw : I w) (hloop : ∀ p ∈ paths, ∀ place,
      w.tree.resolve w.here p = .error place → Q (.error (.linkLoop place)) w [])
    (h : task.run.Does I w Q) : (hold paths task).run.Does I w Q := by
  have hkeep {v u : World} (hv : I v) (hu : u = v) : I u := hu ▸ hv
  rw [hold]
  refine does_andThen.mpr ((does_places w paths).mono (fun _ hv => hkeep hw hv) ?_)
  rintro r v es ⟨rfl, rfl, ⟨ps, rfl⟩ | ⟨p, hp, place, hplace, rfl⟩⟩
  · refine does_andThen.mpr (does_lift.mpr
      ((does_acquireAll v (inOrder ps)).mono (fun _ hv => hkeep hw hv) ?_))
    rintro _ v es ⟨rfl, rfl⟩
    refine Task.does_then.mpr (h.imp fun r v es hv hr => ?_)
    refine (does_releaseAll v _).mono (fun _ hu => hkeep hv hu) ?_
    rintro _ u es' ⟨rfl, rfl⟩
    simpa using hr
  · exact ⟨hw, hloop p hp place hplace⟩

theorem does_hold {task : Task α} {Q : Except Failure α → World → List Execution → Prop}
    (paths : List Path) (hw : I w) (hloop : ∀ place, Q (.error (.linkLoop place)) w [])
    (h : task.run.Does I w Q) : (hold paths task).run.Does I w Q :=
  does_hold_or paths hw (fun _ _ place _ => hloop place) h

/-- Where the paths can be resolved, locks change nothing about a task. -/
theorem does_hold_of_resolves {task : Task α}
    {Q : Except Failure α → World → List Execution → Prop} {paths : List Path} (hw : I w)
    (hpaths : ∀ p ∈ paths, ∃ place, w.tree.resolve w.here p = .ok place)
    (h : task.run.Does I w Q) : (hold paths task).run.Does I w Q := by
  refine does_hold_or paths hw (fun p hp place hloop => ?_) h
  obtain ⟨place', hplace⟩ := hpaths p hp
  rw [hplace] at hloop
  cases hloop

end Lock
end ConfigSteward
