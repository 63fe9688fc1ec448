import ConfigSteward.Proofs.World.Mishaps

/-!
# Ends that a run may come to

Where file calls may fail a plan has many runs. `MayEnd` holds of the results and the worlds that they
end with: what `AlwaysIn` says of a plan is what holds of all of them. The lemmas say exactly how each
kind of plan may end.
-/
namespace ConfigSteward

namespace Plan

variable {α β ε ω : Type} {hazard : Hazard} {told : World → (r : Request) → r.Reply → List ω}
  {w v u : World}

/-- Some run of the plan, however its calls fare, ends with the result in the world. -/
def MayEnd (hazard : Hazard) : Plan α → World → α → World → Prop
  | done b, w, a, v => a = b ∧ v = w
  | ask r next, w, a, v => ∃ reply u, w.Fares hazard r reply u ∧ (next reply).MayEnd hazard u a v

theorem MayEnd.satisfies {p : Plan α} {a : α} {Q : α → World → List ω → Prop}
    (h : p.MayEnd hazard w a v) (hall : p.AlwaysIn hazard told w Q) : ∃ tail, Q a v tail := by
  induction p generalizing w Q with
  | done b =>
    obtain ⟨rfl, rfl⟩ := h
    exact ⟨[], hall⟩
  | ask r next ih =>
    obtain ⟨reply, u, hfares, hend⟩ := h
    obtain ⟨tail, hQ⟩ := ih reply hend (hall reply u hfares)
    exact ⟨_, hQ⟩

theorem always_iff {p : Plan α} {Q : α → World → Prop} :
    (p.AlwaysIn hazard told w fun a v _ => Q a v) ↔ ∀ a v, p.MayEnd hazard w a v → Q a v := by
  refine ⟨fun h a v hend => ?_, fun h => ?_⟩
  · obtain ⟨-, hQ⟩ := hend.satisfies h
    exact hQ
  · induction p generalizing w with
    | done b => exact h b w ⟨rfl, rfl⟩
    | ask r next ih =>
      exact fun reply u hfares => ih reply fun a v hend => h a v ⟨reply, u, hfares, hend⟩

/-- The run without mishaps is one of the runs. -/
theorem mayEnd_run (p : Plan α) (w : World) : p.MayEnd hazard w (p.run w).1 (p.run w).2 := by
  induction p generalizing w with
  | done a => exact ⟨rfl, rfl⟩
  | ask r next ih => exact ⟨_, _, .well, ih _ _⟩

/-- Where all runs end alike that is the end. -/
theorem mayEnd_iff_of_always {p : Plan α} {a b : α}
    (h : p.Leaves hazard w fun a v _ => a = b ∧ v = u) : p.MayEnd hazard w a v ↔ a = b ∧ v = u := by
  constructor
  · exact always_iff.mp h a v
  · rintro ⟨rfl, rfl⟩
    obtain ⟨hresult, hworld⟩ := h.run
    exact hresult ▸ hworld ▸ p.mayEnd_run w

theorem mayEnd_bind {p : Plan α} {f : α → Plan β} {b : β} :
    (p >>= f).MayEnd hazard w b v ↔ ∃ a u, p.MayEnd hazard w a u ∧ (f a).MayEnd hazard u b v := by
  induction p generalizing w with
  | done a =>
    constructor
    · exact fun h => ⟨a, w, ⟨rfl, rfl⟩, h⟩
    · rintro ⟨_, _, ⟨rfl, rfl⟩, h⟩
      exact h
  | ask r next ih =>
    constructor
    · rintro ⟨reply, u, hfares, h⟩
      obtain ⟨a, u', hnext, hf⟩ := (ih reply).mp h
      exact ⟨a, u', ⟨reply, u, hfares, hnext⟩, hf⟩
    · rintro ⟨a, u', ⟨reply, u, hfares, hnext⟩, hf⟩
      exact ⟨reply, u, hfares, (ih reply).mpr ⟨a, u', hnext, hf⟩⟩

theorem mayEnd_request {r : Request} {reply : r.Reply} :
    (request r).MayEnd hazard w reply v ↔ w.Fares hazard r reply v := by
  constructor
  · rintro ⟨reply', u, hfares, rfl, rfl⟩
    exact hfares
  · exact fun h => ⟨reply, v, h, rfl, rfl⟩

@[simp] theorem mayEnd_pure {b : β} {r : Except ε β} :
    (pure b : ExceptT ε Plan β).run.MayEnd hazard w r v ↔ r = .ok b ∧ v = w := .rfl

@[simp] theorem mayEnd_throw {e : ε} {r : Except ε β} :
    (throw e : ExceptT ε Plan β).run.MayEnd hazard w r v ↔ r = .error e ∧ v = w := .rfl

/-- A plan that may fail ends with its own failure or as what follows it does. -/
theorem mayEnd_andThen {t : ExceptT ε Plan α} {f : α → ExceptT ε Plan β} {r : Except ε β} :
    (t >>= f).run.MayEnd hazard w r v ↔
      (∃ e, t.run.MayEnd hazard w (.error e) v ∧ r = .error e) ∨
        ∃ a u, t.run.MayEnd hazard w (.ok a) u ∧ (f a).run.MayEnd hazard u r v := by
  rw [ExceptT.run_bind, mayEnd_bind]
  constructor
  · rintro ⟨e | a, u, ht, hf⟩
    · obtain ⟨rfl, rfl⟩ := hf
      exact .inl ⟨e, ht, rfl⟩
    · exact .inr ⟨a, u, ht, hf⟩
  · rintro (⟨e, ht, rfl⟩ | ⟨a, u, ht, hf⟩)
    · exact ⟨.error e, v, ht, rfl, rfl⟩
    · exact ⟨.ok a, u, ht, hf⟩

section
variable {t : ExceptT ε Plan α} {f : α → ExceptT ε Plan β} {r : Except ε β}

theorem mayEnd_andThen_ok {a : α} (h : ∀ r v, t.run.MayEnd hazard w r v ↔ r = .ok a ∧ v = u) :
    (t >>= f).run.MayEnd hazard w r v ↔ (f a).run.MayEnd hazard u r v := by
  simp only [mayEnd_andThen, h]
  constructor
  · rintro (⟨e, ⟨⟨⟩, -⟩, -⟩ | ⟨_, _, ⟨⟨⟩, rfl⟩, hf⟩)
    exact hf
  · exact fun hf => .inr ⟨a, u, ⟨rfl, rfl⟩, hf⟩

theorem mayEnd_andThen_error {e : ε} (h : ∀ r v, t.run.MayEnd hazard w r v ↔ r = .error e ∧ v = u) :
    (t >>= f).run.MayEnd hazard w r v ↔ r = .error e ∧ v = u := by
  simp only [mayEnd_andThen, h]
  constructor
  · rintro (⟨_, ⟨⟨⟩, rfl⟩, rfl⟩ | ⟨_, _, ⟨⟨⟩, -⟩, -⟩)
    exact ⟨rfl, rfl⟩
  · exact fun ⟨hr, hv⟩ => .inl ⟨e, ⟨rfl, hv⟩, hr⟩

end

theorem mayEnd_lift {p : Plan β} {r : Except ε β} :
    (ExceptT.lift p : ExceptT ε Plan β).run.MayEnd hazard w r v ↔
      ∃ b, p.MayEnd hazard w b v ∧ r = .ok b := by
  rw [ExceptT.run_lift, map_eq_pure_bind, mayEnd_bind]
  constructor
  · rintro ⟨b, u, hp, rfl, rfl⟩
    exact ⟨b, hp, rfl⟩
  · rintro ⟨b, hp, rfl⟩
    exact ⟨b, v, hp, rfl, rfl⟩

end Plan

open Plan

variable {α : Type} {hazard : Hazard} {w v : World} {p : Path}

namespace Task

theorem mayEnd_attemptFile {t : FileTask α} {r : Except Failure (Except Fault α)} :
    (attemptFile t).run.MayEnd hazard w r v ↔ ∃ result, t.run.MayEnd hazard w result v ∧ r = .ok result :=
  mayEnd_lift

theorem mayEnd_resolve (w : World) (p : Path) (r : Except Failure Place) (v : World) :
    (resolve p).run.MayEnd hazard w r v ↔
      r = (w.tree.resolve w.here p).mapError Failure.linkLoop ∧ v = w := by
  refine mayEnd_iff_of_always ?_
  rw [resolve]
  refine always_andThen.mpr ((always_sure (r := .resolve p) fun _ => rfl).mpr ?_)
  have hreply : (w.perform (.resolve p)).1 = w.tree.resolve w.here p := rfl
  rw [hreply]
  rcases w.tree.resolve w.here p with place | place
  · exact ⟨rfl, rfl⟩
  · exact ⟨rfl, rfl⟩

theorem mayEnd_then {task : Task α} {after : Plan Unit} {r : Except Failure α}
    (h : ∀ w, after.Leaves hazard w fun _ v _ => v = w) :
    (task.andThen after).run.MayEnd hazard w r v ↔ task.run.MayEnd hazard w r v := by
  have hafter {u v : World} : after.MayEnd hazard u () v ↔ () = () ∧ v = u :=
    mayEnd_iff_of_always ((h u).mono fun _ _ _ hv => ⟨rfl, hv⟩)
  rw [andThen, ExceptT.run_mk, mayEnd_bind]
  constructor
  · rintro ⟨r', u, htask, hrest⟩
    obtain ⟨⟨⟩, x, hx, rfl, rfl⟩ := mayEnd_bind.mp hrest
    obtain ⟨-, rfl⟩ := hafter.mp hx
    exact htask
  · exact fun htask => ⟨r, v, htask, mayEnd_bind.mpr ⟨(), v, hafter.mpr ⟨rfl, rfl⟩, rfl, rfl⟩⟩

end Task

namespace Lock

/-- Between taking locks and giving them back a task ends as it does without. -/
theorem mayEnd_held {task : Task α} {r : Except Failure α} (ps : List Place) :
    (ExceptT.lift (acquireAll ps) >>= fun _ => task.andThen (releaseAll ps.reverse) :
      Task α).run.MayEnd hazard w r v ↔ task.run.MayEnd hazard w r v := by
  have hacquire (r : Except Failure Unit) (v : World) :
      (ExceptT.lift (acquireAll ps) : Task Unit).run.MayEnd hazard w r v ↔ r = .ok () ∧ v = w :=
    mayEnd_iff_of_always (always_lift.mpr
      ((Idle.locking.acquireAll ps _ w).mono fun _ _ _ h => ⟨rfl, h.1⟩))
  exact (mayEnd_andThen_ok hacquire).trans
    (Task.mayEnd_then fun w => (Idle.locking.releaseAll _ _ w).mono fun _ _ _ h => h.1)

/-- Places can be found unless a link leads back to itself. -/
theorem mayEnd_places {paths : List Path} {r : Except Failure (List Place)}
    (h : (places paths).run.MayEnd hazard w r v) :
    v = w ∧ ((∃ ps, r = .ok ps) ∨ ∃ p ∈ paths, ∃ place, w.tree.resolve w.here p = .error place) := by
  induction paths generalizing r v with
  | nil => exact ⟨h.2, .inl ⟨[], h.1⟩⟩
  | cons p paths ih =>
    rcases mayEnd_andThen.mp h with ⟨e, hresolve, -⟩ | ⟨place, u, hresolve, hrest⟩
    · obtain ⟨hr, rfl⟩ := (Task.mayEnd_resolve w p _ v).mp hresolve
      rcases hplace : v.tree.resolve v.here p with loop | place
      · exact ⟨rfl, .inr ⟨p, List.mem_cons_self, loop, hplace⟩⟩
      · rw [hplace] at hr
        cases hr
    · obtain ⟨-, rfl⟩ := (Task.mayEnd_resolve w p _ u).mp hresolve
      rcases mayEnd_andThen.mp hrest with ⟨e, hplaces, rfl⟩ | ⟨ps, x, hplaces, rfl, rfl⟩
      · obtain ⟨rfl, ⟨_, ⟨⟩⟩ | ⟨q, hq, hloop⟩⟩ := ih hplaces
        exact ⟨rfl, .inr ⟨q, List.mem_cons_of_mem p hq, hloop⟩⟩
      · exact ⟨(ih hplaces).1, .inl ⟨_, rfl⟩⟩

/-- Under locks that can be taken a task ends as it does without. -/
theorem mayEnd_of_hold {task : Task α} {paths : List Path} {r : Except Failure α}
    (hpaths : ∀ p ∈ paths, ∃ place, w.tree.resolve w.here p = .ok place)
    (h : (hold paths task).run.MayEnd hazard w r v) : task.run.MayEnd hazard w r v := by
  rcases mayEnd_andThen.mp h with ⟨e, hplaces, -⟩ | ⟨ps, u, hplaces, hrest⟩
  · obtain ⟨-, ⟨_, ⟨⟩⟩ | ⟨p, hp, loop, hloop⟩⟩ := mayEnd_places hplaces
    obtain ⟨place, hplace⟩ := hpaths p hp
    cases hplace.symm.trans hloop
  · obtain ⟨rfl, -⟩ := mayEnd_places hplaces
    exact (mayEnd_held _).mp hrest

theorem always_hold_of_resolves {task : Task α} {paths : List Path}
    {Q : Except Failure α → World → Prop}
    (hpaths : ∀ p ∈ paths, ∃ place, w.tree.resolve w.here p = .ok place)
    (h : task.run.Leaves hazard w fun r v _ => Q r v) :
    (hold paths task).run.Leaves hazard w fun r v _ => Q r v :=
  always_iff.mpr fun r v hend => always_iff.mp h r v (mayEnd_of_hold hpaths hend)

/-- Under the lock of a path a task may end as it may without, unless a link leads back to
itself. -/
theorem mayEnd_hold {task : Task α} {r : Except Failure α} :
    (hold [p] task).run.MayEnd hazard w r v ↔
      (∃ place, w.tree.resolve w.here p = .error place ∧ r = .error (.linkLoop place) ∧ v = w) ∨
        ∃ place, w.tree.resolve w.here p = .ok place ∧ task.run.MayEnd hazard w r v := by
  have hresolve (r : Except Failure Place) (v : World) :
      (Task.resolve p).run.MayEnd hazard w r v ↔
        r = (w.tree.resolve w.here p).mapError Failure.linkLoop ∧ v = w :=
    Task.mayEnd_resolve w p r v
  rw [hold]
  rcases hplace : w.tree.resolve w.here p with place | place
  · rw [hplace] at hresolve
    exact (mayEnd_andThen_error fun _ _ => mayEnd_andThen_error hresolve).trans (by simp)
  · rw [hplace] at hresolve
    have hplaces (r : Except Failure (List Place)) (v : World) :
        (places [p]).run.MayEnd hazard w r v ↔ r = .ok [place] ∧ v = w :=
      (mayEnd_andThen_ok hresolve).trans (mayEnd_andThen_ok fun _ _ => mayEnd_pure)
    exact (mayEnd_andThen_ok hplaces).trans ((mayEnd_held _).trans (by simp))

end Lock
end ConfigSteward
