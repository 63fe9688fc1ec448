import ConfigSteward.Proofs.World.Endings
import ConfigSteward.Proofs.World.Locks
import ConfigSteward.Proofs.World.Regular

/-!
# Runs with mishaps

What mishaps leave of a tree is what some request leaves of it. What a plan did, as marks, tells which
programs it ran. Where nothing can go wrong, since no request can fail or since nothing goes wrong any
more, a plan ends as it does without mishaps, so that what `Does` says of it holds.
-/
namespace ConfigSteward

def Execution.mark (e : Execution) : Mark := .ran e.args e.reply

namespace World

variable {hazard : Hazard} {w v : World} {r : Request}

/-- No request takes back that a program was run. -/
theorem length_ran_perform (w : World) (r : Request) :
    w.ran.length ≤ (w.perform r).2.ran.length := by
  rw [perform_ran, List.length_append]
  exact Nat.le_add_left _ _

/-- Whatever comes of a request, it leaves all as it was or does what some request does. -/
theorem Fares.performs {reply : r.Reply} (h : w.Fares hazard r reply v) :
    v = w ∨ ∃ r', v = (w.perform r').2 := by
  cases h with
  | well => exact .inr ⟨r, rfl⟩
  | ill => exact .inl rfl
  | torn _ _ htorn =>
    cases r with
    | fill p bytes =>
      obtain ⟨k, rfl⟩ := htorn
      exact .inr ⟨_, rfl⟩
    | _ => exact htorn.elim

theorem Fares.executed_mark {reply : r.Reply} (h : w.Fares hazard r reply v) :
    (w.executed r).map Execution.mark = (r.marks reply).filter Mark.isRun := by
  cases r with
  | run args =>
    cases h with
    | well => rfl
    | ill _ hfails => cases hfails
    | torn _ hfails => cases hfails
  | fill | move | unlink => rcases reply with _ | ⟨⟩ <;> rfl
  | _ => rfl

end World

namespace Plan

variable {α : Type} {hazard : Hazard} {p : Plan α} {w v : World} {a : α}

/-- What every request keeps, a plan keeps amid mishaps. -/
theorem MayEnd.keeps {I : World → Prop} (hI : ∀ v r, I v → I (v.perform r).2)
    (h : p.MayEnd hazard w a v) (hw : I w) : I v := by
  induction p generalizing w with
  | done b => exact h.2 ▸ hw
  | ask r next ih =>
    obtain ⟨reply, u, hfares, hend⟩ := h
    refine ih reply hend ?_
    obtain rfl | ⟨r', rfl⟩ := hfares.performs
    · exact hw
    · exact hI w r' hw

theorem MayEnd.here_eq (h : p.MayEnd hazard w a v) : v.here = w.here :=
  h.keeps (I := fun u => u.here = w.here) (fun u r hu => (u.perform_frame r).1.trans hu) rfl

theorem MayEnd.regular (h : p.MayEnd hazard w a v) (hw : w.Regular) (hquiet : w.Quiet) :
    v.Regular :=
  (h.keeps (I := fun u => u.Regular ∧ u.Quiet) (fun _ r hu =>
    ⟨World.perform_regular hu.1 hu.2 r, World.perform_quiet hu.2 r⟩) ⟨hw, hquiet⟩).1

/-- What a plan did tells which programs it ran. -/
theorem Leaves.braves {Q : α → World → List Mark → Prop} (h : p.Leaves hazard w Q) :
    p.Braves hazard w fun a v es => ∃ marks, Q a v marks ∧
      es.map Execution.mark = marks.filter Mark.isRun := by
  induction p generalizing w Q with
  | done a => exact ⟨[], h, rfl⟩
  | ask r next ih =>
    intro reply v hfares
    refine (ih reply (h reply v hfares)).mono ?_
    rintro a u es ⟨marks, hQ, hes⟩
    exact ⟨_, hQ, by rw [List.map_append, List.filter_append, hfares.executed_mark, hes]⟩

/-- A plan that does nothing with programs runs none. -/
theorem Leaves.braves_none {Q : α → World → List Mark → Prop} (h : p.Leaves hazard w Q)
    (hnone : ∀ a v marks, Q a v marks → ∀ mark ∈ marks, mark.isRun = false) :
    p.Braves hazard w fun a v es => es = [] ∧ ∃ marks, Q a v marks := by
  refine h.braves.mono ?_
  rintro a v es ⟨marks, hQ, hes⟩
  rw [List.filter_eq_nil_iff.mpr fun mark hmark => by simp [hnone a v marks hQ mark hmark],
    List.map_eq_nil_iff] at hes
  exact ⟨hes, marks, hQ⟩

/-- Once nothing goes wrong any more a plan ends as it does without mishaps. -/
theorem Does.braves {n : Nat} {I : World → Prop} {Q : α → World → List Execution → Prop}
    (h : p.Does I w Q) (hceases : hazard.CeasesAfter n) (hn : n < w.ran.length) :
    p.Braves hazard w Q := by
  suffices ∀ {Q : α → World → List Execution → Prop},
      Q (p.run w).1 (p.run w).2 (p.executions w) → p.Braves hazard w Q from this h.ends
  clear h
  intro Q h
  induction p generalizing w Q with
  | done a => exact h
  | ask r next ih =>
    rintro reply v (_ | ⟨hf, -⟩ | ⟨hf, -, -⟩)
    · exact ih _ (Nat.lt_of_lt_of_le hn (w.length_ran_perform r)) h
    · exact absurd (hceases hf) (Nat.not_le_of_lt hn)
    · exact absurd (hceases hf) (Nat.not_le_of_lt hn)

/-- A plan that starts with a program, during which nothing goes wrong any more. -/
theorem Does.braves_ran {args : List String} {next : Except Failure CommandResult → Plan α}
    {I : World → Prop} {Q : α → World → List Execution → Prop}
    (h : (ask (.run args) next).Does I w Q) (hceases : hazard.CeasesAfter w.ran.length) :
    (ask (.run args) next).Braves hazard w Q := by
  rintro reply v (_ | ⟨-, hfails⟩ | ⟨-, hfails, -⟩)
  · have hrest : (next (w.perform (.run args)).1).Does I (w.perform (.run args)).2 fun a u es =>
        Q a u (w.executed (.run args) ++ es) :=
      ⟨fun v hv => h.through v (.later hv), h.ends⟩
    exact hrest.braves hceases (Nat.lt_succ_self _)
  · cases hfails
  · cases hfails

/-- No request of the plan can fail. -/
def Unfailing : Plan α → Prop
  | done _ => True
  | ask r next => (∀ f, r.failing? f = none) ∧ ∀ reply, (next reply).Unfailing

theorem Unfailing.locking : Kind.Locking fun _ p => p.Unfailing where
  done _ := trivial
  bind := by
    intro α β p f h hf
    induction p with
    | done a => exact hf a
    | ask r next ih => exact ⟨h.1, fun reply => ih reply (h.2 reply)⟩
  acquires _ := ⟨fun _ => rfl, fun _ => trivial⟩
  releases _ := ⟨fun _ => rfl, fun _ => trivial⟩

theorem Does.braves_unfailing {I : World → Prop} {Q : α → World → List Execution → Prop}
    (h : p.Does I w Q) (hp : p.Unfailing) : p.Braves hazard w Q := by
  suffices ∀ {Q : α → World → List Execution → Prop},
      Q (p.run w).1 (p.run w).2 (p.executions w) → p.Braves hazard w Q from this h.ends
  clear h
  intro Q h
  induction p generalizing w Q with
  | done a => exact h
  | ask r next ih =>
    rintro reply v (_ | ⟨-, hfails⟩ | ⟨-, hfails, -⟩)
    · exact ih _ (hp.2 _) h
    · cases (hp.1 _).symm.trans hfails
    · cases (hp.1 _).symm.trans hfails

end Plan

open Plan

namespace Lock

variable {α : Type} {hazard : Hazard} {w : World}

private theorem unfailing_places (paths : List Path) : (places paths).run.Unfailing := by
  induction paths with
  | nil => exact Unfailing.locking.pure _
  | cons p paths ih =>
    exact Unfailing.locking.andThen
      (Unfailing.locking.resolve ⟨fun _ => rfl, fun _ => trivial⟩) fun _ =>
        Unfailing.locking.andThen ih fun _ => Unfailing.locking.pure _

/-- A task that holds locks does what it does without them, or a link leads back to itself. -/
theorem braves_hold {task : Task α} {Q : Except Failure α → World → List Execution → Prop}
    (paths : List Path) (hloop : ∀ p ∈ paths, ∀ place,
      w.tree.resolve w.here p = .error place → Q (.error (.linkLoop place)) w [])
    (h : task.run.Braves hazard w Q) : (hold paths task).run.Braves hazard w Q := by
  rw [hold]
  refine always_andThen.mpr
    (((does_places w paths).braves_unfailing (unfailing_places paths)).mono ?_)
  rintro r v es ⟨rfl, rfl, ⟨ps, rfl⟩ | ⟨p, hp, place, hplace, rfl⟩⟩
  · refine always_andThen.mpr (always_lift.mpr (((does_acquireAll v (inOrder ps)).braves_unfailing
      (Unfailing.locking.acquireAll _)).mono ?_))
    rintro _ v es ⟨rfl, rfl⟩
    refine Task.always_then.mpr (h.mono fun r v es hr => ?_)
    refine ((does_releaseAll v _).braves_unfailing (Unfailing.locking.releaseAll _)).mono ?_
    rintro _ u es' ⟨rfl, rfl⟩
    simpa using hr
  · exact hloop p hp place hplace

end Lock
end ConfigSteward
