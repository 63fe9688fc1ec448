import ConfigSteward.Proofs.Concurrency.Lockless
import ConfigSteward.Proofs.World.Passing
import Mathlib.Data.List.Nodup

/-!
# Plans that hold one file

Plans that each hold one and the same file run as if they ran one after the other, in the order in
which they took the lock: when a plan takes the lock it finds what those before it left, and until
it gives the lock back the others only find the file's place and wait.
-/
namespace ConfigSteward

variable {α : Type}

namespace World

/-- The worlds differ in their programs at most. -/
structure Matches (v u : World) : Prop where
  tree : v.tree = u.tree
  here : v.here = u.here
  clock : v.clock = u.clock
  noted : v.noted = u.noted
  ran : v.ran = u.ran
  draw : v.draw = u.draw

theorem Matches.seen_eq {v u : World} (h : v.Matches u) (programs : Programs) :
    { v with programs } = { u with programs } := by
  simp only [h.tree, h.here, h.clock, h.noted, h.ran, h.draw]

theorem Matches.trans {v u x : World} (h : v.Matches u) (h' : u.Matches x) : v.Matches x :=
  ⟨h.tree.trans h'.tree, h.here.trans h'.here, h.clock.trans h'.clock, h.noted.trans h'.noted,
    h.ran.trans h'.ran, h.draw.trans h'.draw⟩

/-- In this world the path stands for the place. -/
def Finds (w : World) (p : Path) (lock : Place) : Prop := w.tree.resolve w.here p = .ok lock

end World

namespace Plan

/-- A plan that is carried out from one world comes to what is left of it in another one. -/
inductive Reaches (p : Plan α) (w : World) : Plan α → World → Prop where
  | here : Reaches p w p w
  | next {r : Request} {next : r.Reply → Plan α} {v : World} (h : Reaches p w (.ask r next) v) :
      Reaches p w (next (v.perform r).1) (v.perform r).2

theorem Reaches.run_eq {p q : Plan α} {w v : World} (h : p.Reaches w q v) : q.run v = p.run w := by
  induction h with
  | here => rfl
  | next _ ih => exact ih

theorem Reaches.passes {p q : Plan α} {w v : World} (h : p.Reaches w q v) : p.Passes w v := by
  suffices ∀ x, q.Passes v x → p.Passes w x from this v .here
  induction h with
  | here => exact fun _ hx => hx
  | next _ ih => exact fun x hx => ih x (.later hx)

/-- Do the body and give the lock back. -/
def yielding (lock : Place) (body : Plan α) : Plan α :=
  body >>= fun a => .ask (.release lock) fun _ => .done a

/-- Do the body under the lock of a path; `fail` is the end where the path leads back to itself. -/
def guarded (p : Path) (body : Plan α) (fail : Place → α) : Plan α :=
  .ask (.resolve p) fun
    | .ok lock => .ask (.acquire lock) fun _ => body.yielding lock
    | .error place => .done (fail place)

private theorem guarded_run {p : Path} {body : Plan α} {fail : Place → α} {w : World} {lock : Place}
    (h : w.Finds p lock) : (guarded p body fail).run w = body.run w := by
  have hanswer : (w.perform (.resolve p)).1 = .ok lock := h
  rw [guarded, run_ask, hanswer]
  exact run_bind body (fun a => .ask (.release lock) fun _ => .done a) w

theorem guarded_passes {p : Path} {body : Plan α} {fail : Place → α} {w v : World} {lock : Place}
    (h : w.Finds p lock) (hv : body.Passes w v) : (guarded p body fail).Passes w v := by
  have hanswer : (w.perform (.resolve p)).1 = .ok lock := h
  refine .later ?_
  rw [hanswer]
  exact .later (passes_bind.mpr (.inl hv))

end Plan

/-- The plans that took a lock, in order. -/
def takers {ι : Type} (events : List (ι × Request)) : List ι :=
  events.filterMap fun
    | (i, .acquire _) => some i
    | _ => none

private theorem takers_append {ι : Type} (events events' : List (ι × Request)) :
    takers (events ++ events') = takers events ++ takers events' :=
  List.filterMap_append

namespace Crowd

variable {ι : Type}

/-- One of the plans carried out from start to end. -/
def alone (c : Crowd ι α) (w : World) (i : ι) : α × World :=
  (c.plan i).run { w with programs := c.programs i }

/-- The world after some of the plans, carried out one after the other. -/
def inTurn (c : Crowd ι α) (order : List ι) : World :=
  order.foldl (fun w i => (c.alone w i).2) c.world

theorem inTurn_snoc (c : Crowd ι α) (order : List ι) (i : ι) :
    c.inTurn (order ++ [i]) = (c.alone (c.inTurn order) i).2 := by
  simp [inTurn]

/-- The plans have ended as they do one after the other. -/
def Served (c : Crowd ι α) (plan : ι → Plan α) (order : List ι) : Prop :=
  ∀ pre i post, order = pre ++ i :: post → plan i = .done (c.alone (c.inTurn pre) i).1

/-- The last in order has the lock and has come so far in its body. -/
structure Serves (c c' : Crowd ι α) (lock : Place) (body : ι → Plan α) (past : List ι) (i : ι)
    (rest : Plan α) : Prop where
  owner : c'.owner lock = some i
  plan : c'.plan i = rest.yielding lock
  lockless : rest.Lockless
  reaches : (body i).Reaches { c.inTurn past with programs := c.programs i } rest (c'.seen i)

/-- How far a crowd has come whose plans hold one file. -/
structure Progress (c c' : Crowd ι α) (lock : Place) (body : ι → Plan α) (order : List ι) :
    Prop where
  once : order.Nodup
  comes : ∀ i ∉ order, c'.plan i = c.plan i ∨
    c'.plan i = .ask (.acquire lock) fun _ => (body i).yielding lock
  turn : (c'.owner lock = none ∧ c.Served c'.plan order ∧ c'.world.Matches (c.inTurn order)) ∨
    ∃ past i rest, order = past ++ [i] ∧ c.Served c'.plan past ∧
      c.Serves c' lock body past i rest

section
variable {c c' c'' : Crowd ι α} {p : Path} {lock : Place} {body : ι → Plan α}
  {fail : ι → Place → α} {order past : List ι} {i j : ι} {r : Request} {plan : ι → Plan α}
  {rest q : Plan α} {world : World}

theorem Served.snoc (h : c.Served plan order) (hi : plan i = .done (c.alone (c.inTurn order) i).1) :
    c.Served plan (order ++ [i]) := by
  intro pre j post heq
  cases post using List.reverseRecOn with
  | nil =>
    obtain ⟨rfl, hij⟩ := List.append_inj' heq rfl
    cases hij
    exact hi
  | append_singleton post k _ =>
    rw [← List.cons_append, ← List.append_assoc] at heq
    exact h pre j post (List.append_inj' heq rfl).1

theorem Served.done (h : c.Served plan order) (hi : i ∈ order) : (plan i).Finished := by
  obtain ⟨pre, post, heq⟩ := List.append_of_mem hi
  exact ⟨_, h pre i post heq⟩

theorem Progress.notMem_past (h : c.Progress c' lock body order) (horder : order = past ++ [i]) :
    i ∉ past := fun hmem =>
  (List.nodup_append.mp (horder ▸ h.once)).2.2 i hmem i (List.mem_singleton_self i) rfl

variable [DecidableEq ι]

/-- A request of one plan leaves what others have reached. -/
theorem Served.update (h : c.Served plan order) (hi : i ∉ order) :
    c.Served (Function.update plan i q) order := by
  intro pre j post heq
  have hne : j ≠ i := fun hji => hi (by simp [heq, hji])
  exact (Function.update_of_ne hne q plan).trans (h pre j post heq)

theorem Serves.update (h : c.Serves c' lock body past j rest) (hne : j ≠ i)
    (hworld : world.Matches c'.world) :
    c.Serves { c' with world, plan := Function.update c'.plan i q } lock body past j rest := by
  refine ⟨h.owner, (Function.update_of_ne hne q c'.plan).trans h.plan, h.lockless, ?_⟩
  have hseen := h.reaches
  rw [seen, ← hworld.seen_eq] at hseen
  exact hseen

namespace Progress

variable (h : c.Progress c' lock body order)
include h

/-- A plan that has found the place waits for its turn. -/
theorem finds (hi : i ∉ order)
    (hq : q = .ask (.acquire lock) fun _ => (body i).yielding lock)
    (hworld : world.Matches c'.world) :
    c.Progress { c' with world, plan := Function.update c'.plan i q } lock body order := by
  refine ⟨h.once, fun j hj => ?_, ?_⟩
  · by_cases hji : j = i
    · subst hji
      exact .inr ((Function.update_self j q c'.plan).trans hq)
    · simpa [Function.update_of_ne hji] using h.comes j hj
  · rcases h.turn with ⟨howner, hserved, hmatches⟩ | ⟨past, j, rest, horder, hserved, hserves⟩
    · exact .inl ⟨howner, hserved.update hi, hworld.trans hmatches⟩
    · rw [horder] at hi
      have hne : j ≠ i := fun hji => hi (by simp [hji])
      exact .inr ⟨past, j, rest, horder, hserved.update fun hmem => hi (by simp [hmem]),
        hserves.update hne hworld⟩

/-- A plan that takes the lock finds what those before it left. -/
theorem takes (hi : i ∉ order) (hfree : c'.owner lock = none) (hlockless : (body i).Lockless)
    (hprograms : c'.programs = c.programs) :
    c.Progress { c' with
      owner := Function.update c'.owner lock (some i)
      plan := Function.update c'.plan i ((body i).yielding lock) } lock body (order ++ [i]) := by
  refine ⟨by simpa using h.once.concat hi, fun j hj => ?_, ?_⟩
  · obtain ⟨hj, hji⟩ : j ∉ order ∧ j ≠ i := by simpa using hj
    simpa [Function.update_of_ne hji] using h.comes j hj
  · rcases h.turn with ⟨howner, hserved, hmatches⟩ | ⟨past, j, rest, horder, hserved, hserves⟩
    · refine .inr ⟨order, i, body i, rfl, hserved.update hi, ?_⟩
      refine ⟨Function.update_self lock _ _, Function.update_self i _ _, hlockless, ?_⟩
      rw [seen, hprograms, hmatches.seen_eq]
      exact .here
    · rw [hserves.owner] at hfree
      cases hfree

/-- The plan that has the lock makes a request of its body. -/
theorem goes_on {r : Request} {next : r.Reply → Plan α} (horder : order = past ++ [i])
    (hserved : c.Served c'.plan past) (hserves : c.Serves c' lock body past i (.ask r next)) :
    c.Progress { c' with
      world := ((c'.seen i).perform r).2
      plan := Function.update c'.plan i ((next ((c'.seen i).perform r).1).yielding lock) }
      lock body order := by
  have hi := h.notMem_past horder
  refine ⟨h.once, fun j hj => ?_,
    .inr ⟨past, i, next ((c'.seen i).perform r).1, horder, hserved.update hi, ?_⟩⟩
  · have hji : j ≠ i := fun hji => hj (by simp [horder, hji])
    simpa [Function.update_of_ne hji] using h.comes j hj
  · refine ⟨hserves.owner, Function.update_self i _ _, hserves.lockless.2 _, ?_⟩
    have hnext := hserves.reaches.next
    have hsame : (c'.seen i).programs = ((c'.seen i).perform r).2.programs :=
      ((c'.seen i).perform_frame r).2.2.symm
    change (body i).Reaches _ _ { ((c'.seen i).perform r).2 with programs := (c'.seen i).programs }
    rw [hsame]
    exact hnext

/-- The plan that has the lock has done its body and gives the lock back. -/
theorem gives_back {a : α} (hstart : c.plan i = .guarded p (body i) (fail i))
    (hturn : ∀ order, (c.inTurn order).Finds p lock) (horder : order = past ++ [i])
    (hserved : c.Served c'.plan past) (hserves : c.Serves c' lock body past i (.done a)) :
    c.Progress { c' with
      owner := Function.update c'.owner lock none
      plan := Function.update c'.plan i (.done a) } lock body order := by
  have hi := h.notMem_past horder
  have halone : c.alone (c.inTurn past) i = (a, c'.seen i) := by
    rw [alone, hstart]
    exact (Plan.guarded_run (w := { c.inTurn past with programs := c.programs i })
      (hturn past)).trans hserves.reaches.run_eq.symm
  refine ⟨h.once, fun j hj => ?_, .inl ⟨Function.update_self lock _ _, ?_, ?_⟩⟩
  · have hji : j ≠ i := fun hji => hj (by simp [horder, hji])
    simpa [Function.update_of_ne hji] using h.comes j hj
  · rw [horder]
    refine (hserved.update hi).snoc ?_
    rw [halone]
    exact Function.update_self i _ _
  · rw [horder, inTurn_snoc, halone]
    exact ⟨rfl, rfl, rfl, rfl, rfl, rfl⟩

end Progress

/-- A plan that has not taken the lock finds its place or takes it. -/
theorem Step.progress_before (hstart : ∀ i, c.plan i = .guarded p (body i) (fail i))
    (hlockless : ∀ i, (body i).Lockless) (hprograms : c'.programs = c.programs)
    (hfinds : c'.world.Finds p lock) (h : c.Progress c' lock body order) (hi : i ∉ order)
    (hstep : c'.Step i r c'') : c.Progress c'' lock body (order ++ takers [(i, r)]) := by
  rcases h.comes i hi with hplan | hplan
  · rw [hstart i] at hplan
    cases hstep with
    | acquire asks | release asks =>
      rw [hplan] at asks
      cases asks
    | act lockless asks =>
      rw [hplan] at asks
      cases asks
      have hanswer : ((c'.seen i).perform (.resolve p)).1 = .ok lock := hfinds
      have hsame : ((c'.seen i).perform (.resolve p)).2.Matches c'.world := ⟨rfl, rfl, rfl, rfl, rfl, rfl⟩
      rw [hanswer, takers, List.filterMap_cons, List.filterMap_nil, List.append_nil]
      exact h.finds hi rfl hsame
  · cases hstep with
    | acquire asks free =>
      rw [hplan] at asks
      cases asks
      exact h.takes hi free (hlockless i) hprograms
    | release asks =>
      rw [hplan] at asks
      cases asks
    | act lockless asks =>
      rw [hplan] at asks
      cases asks
      exact lockless.elim

/-- The plan that has the lock goes on with its body or gives the lock back. -/
theorem Step.progress_serving (hstart : ∀ i, c.plan i = .guarded p (body i) (fail i))
    (hturn : ∀ order, (c.inTurn order).Finds p lock) (h : c.Progress c' lock body order)
    (horder : order = past ++ [i]) (hserved : c.Served c'.plan past)
    (hserves : c.Serves c' lock body past i rest) (hstep : c'.Step i r c'') :
    c.Progress c'' lock body (order ++ takers [(i, r)]) := by
  have hplan := hserves.plan
  cases rest with
  | done a =>
    cases hstep with
    | acquire asks =>
      rw [hplan] at asks
      cases asks
    | release asks =>
      rw [hplan] at asks
      cases asks
      rw [takers, List.filterMap_cons, List.filterMap_nil, List.append_nil]
      exact h.gives_back (hstart i) hturn horder hserved hserves
    | act lockless asks =>
      rw [hplan] at asks
      cases asks
      exact lockless.elim
  | ask r' next =>
    cases hstep with
    | acquire asks | release asks =>
      rw [hplan] at asks
      cases asks
      exact hserves.lockless.1.elim
    | act lockless asks =>
      rw [hplan] at asks
      cases asks
      have hnone : takers [(i, r)] = [] := by
        cases r with
        | acquire => exact lockless.elim
        | _ => rfl
      rw [hnone, List.append_nil]
      exact h.goes_on horder hserved hserves

/-- A step keeps the crowd in turn. -/
theorem Step.progress (hstart : ∀ i, c.plan i = .guarded p (body i) (fail i))
    (hlockless : ∀ i, (body i).Lockless) (hprograms : c'.programs = c.programs)
    (hfinds : c'.world.Finds p lock) (hturn : ∀ order, (c.inTurn order).Finds p lock)
    (h : c.Progress c' lock body order) (hstep : c'.Step i r c'') :
    c.Progress c'' lock body (order ++ takers [(i, r)]) := by
  have hends (hdone : (c'.plan i).Finished) : False := by
    obtain ⟨a, hdone⟩ := hdone
    cases hstep with
    | acquire asks | release asks | act _ asks =>
      rw [hdone] at asks
      cases asks
  by_cases hi : i ∈ order
  · rcases h.turn with ⟨-, hserved, -⟩ | ⟨past, j, rest, horder, hserved, hserves⟩
    · exact (hends (hserved.done hi)).elim
    · by_cases hij : i = j
      · subst hij
        exact hstep.progress_serving hstart hturn h horder hserved hserves
      · have hmem : i ∈ past := by simpa [horder, hij] using hi
        exact (hends (hserved.done hmem)).elim
  · exact hstep.progress_before hstart hlockless hprograms hfinds h hi

/-- Plans that hold one file are carried out in turn, whatever their steps come between. -/
theorem Runs.progress {events : List (ι × Request)} (hfree : c.owner lock = none)
    (hstart : ∀ i, c.plan i = .guarded p (body i) (fail i)) (hlockless : ∀ i, (body i).Lockless)
    (hfinds : ∀ events' d, c.Runs events' d → d.world.Finds p lock)
    (hturn : ∀ order, (c.inTurn order).Finds p lock) (hrun : c.Runs events c') :
    c.Progress c' lock body (takers events) := by
  induction hrun with
  | start =>
    refine ⟨List.nodup_nil, fun i _ => .inl rfl, .inl ⟨hfree, fun pre i post heq => ?_, ?_⟩⟩
    · simp [takers] at heq
    · exact ⟨rfl, rfl, rfl, rfl, rfl, rfl⟩
  | step run step ih =>
    rw [takers, List.filterMap_append]
    exact step.progress hstart hlockless run.programs_eq (hfinds _ _ run) hturn ih

/-! ### Every order is the order of a run -/

variable {events : List (ι × Request)}

/-- The request of a plan that is not about a lock, with none of the others in between. -/
theorem Runs.act {next : r.Reply → Plan α} (hrun : c.Runs events c')
    (hplan : c'.plan i = .ask r next) (hlockless : r.Lockless) :
    ∃ events' d, c.Runs (events ++ events') d ∧ takers events' = [] ∧ d.owner = c'.owner ∧
      d.plan = Function.update c'.plan i (next ((c'.seen i).perform r).1) ∧
      d.seen i = ((c'.seen i).perform r).2 := by
  refine ⟨[(i, r)], _, .step hrun (.act hlockless hplan), ?_, rfl, rfl, ?_⟩
  · cases r with
    | acquire => exact hlockless.elim
    | _ => rfl
  · have hsame : (c'.seen i).programs = ((c'.seen i).perform r).2.programs :=
      ((c'.seen i).perform_frame r).2.2.symm
    change { ((c'.seen i).perform r).2 with programs := (c'.seen i).programs } = _
    rw [hsame]

/-- The body of a plan, with none of the others in between. -/
theorem Runs.through {f : α → Plan α} (hlockless : q.Lockless) (hrun : c.Runs events c')
    (hplan : c'.plan i = q >>= f) :
    ∃ events' d, c.Runs (events ++ events') d ∧ takers events' = [] ∧ d.owner = c'.owner ∧
      d.plan = Function.update c'.plan i (f (q.run (c'.seen i)).1) ∧
      d.seen i = (q.run (c'.seen i)).2 := by
  induction q generalizing c' events with
  | done a =>
    refine ⟨[], c', ?_, rfl, rfl, ?_, rfl⟩
    · rwa [List.append_nil]
    · exact (Function.update_eq_self_iff.mpr hplan.symm).symm
  | ask r next ih =>
    obtain ⟨events₁, d, hrun₁, htakers₁, howner₁, hplan₁, hseen₁⟩ := hrun.act hplan hlockless.1
    obtain ⟨events₂, d', hrun₂, htakers₂, howner₂, hplan₂, hseen₂⟩ :=
      ih ((c'.seen i).perform r).1 (hlockless.2 _) hrun₁
        (by rw [hplan₁, Function.update_self]; rfl)
    rw [hseen₁] at hplan₂ hseen₂
    refine ⟨events₁ ++ events₂, d', by rwa [← List.append_assoc], ?_, howner₂.trans howner₁, ?_,
      hseen₂⟩
    · rw [takers_append, htakers₁, htakers₂]
      rfl
    · rw [hplan₂, hplan₁, Function.update_idem]
      rfl

/-- A plan that holds the file, with none of the others in between. -/
theorem Runs.serve (hrun : c.Runs events c') (hfree : c'.owner lock = none)
    (hplan : c'.plan i = .guarded p (body i) (fail i)) (hlockless : (body i).Lockless)
    (hfinds : (c'.seen i).Finds p lock) :
    ∃ events' d, c.Runs (events ++ events') d ∧ takers events' = [i] ∧ d.owner lock = none ∧
      (∀ j, j ≠ i → d.plan j = c'.plan j) ∧ (d.plan i).Finished ∧
      d.seen i = ((c'.plan i).run (c'.seen i)).2 := by
  have hanswer : ((c'.seen i).perform (.resolve p)).1 = .ok lock := hfinds
  obtain ⟨events₁, d₁, hrun₁, htakers₁, howner₁, hplan₁, hseen₁⟩ := hrun.act hplan trivial
  rw [hanswer] at hplan₁
  have hrun₂ : c.Runs ((events ++ events₁) ++ [(i, .acquire lock)]) _ :=
    .step hrun₁ (.acquire (by rw [hplan₁, Function.update_self]) (by rw [howner₁, hfree]))
  obtain ⟨events₂, d₂, hrun₃, htakers₂, howner₂, hplan₂, hseen₂⟩ :=
    hrun₂.through hlockless (Function.update_self i _ _)
  have hrun₄ := hrun₃.step (.release (by rw [hplan₂, Function.update_self]))
  rw [List.append_assoc events, List.append_assoc events, List.append_assoc events] at hrun₄
  refine ⟨_, _, hrun₄, ?_, Function.update_self lock _ _, fun j hj => ?_,
    ⟨_, Function.update_self i _ _⟩, ?_⟩
  · rw [takers_append, takers_append, takers_append, htakers₁, htakers₂]
    rfl
  · simp [Function.update_of_ne hj, hplan₂, hplan₁]
  · rw [hplan, Plan.guarded_run hfinds]
    exact hseen₂.trans (congrArg (fun w => ((body i).run w).2) hseen₁)

/-- Plans that hold one file can be carried out in any order. -/
theorem exists_runs_inTurn (hfree : c.owner lock = none)
    (hstart : ∀ i, c.plan i = .guarded p (body i) (fail i)) (hlockless : ∀ i, (body i).Lockless)
    (hturn : ∀ order, (c.inTurn order).Finds p lock) (honce : order.Nodup) :
    ∃ events d, c.Runs events d ∧ takers events = order ∧ d.owner lock = none ∧
      (∀ j ∉ order, d.plan j = c.plan j) ∧ (∀ i ∈ order, (d.plan i).Finished) ∧
      d.world.Matches (c.inTurn order) := by
  induction order using List.reverseRecOn with
  | nil => exact ⟨[], c, .start, rfl, hfree, fun _ _ => rfl, nofun, rfl, rfl, rfl, rfl, rfl, rfl⟩
  | append_singleton order i ih =>
    have honce' : order.Nodup := (List.nodup_append.mp honce).1
    have hi : i ∉ order := fun hi =>
      (List.nodup_append.mp honce).2.2 i hi i (List.mem_singleton_self i) rfl
    obtain ⟨events₁, d₁, hrun₁, htakers₁, howner₁, hothers₁, hends₁, hmatches₁⟩ := ih honce'
    have hplan : d₁.plan i = .guarded p (body i) (fail i) := (hothers₁ i hi).trans (hstart i)
    have hseen : d₁.seen i = { c.inTurn order with programs := c.programs i } := by
      rw [seen, hrun₁.programs_eq, hmatches₁.seen_eq]
    obtain ⟨events₂, d₂, hrun₂, htakers₂, howner₂, hothers₂, hend₂, hseen₂⟩ :=
      hrun₁.serve howner₁ hplan (hlockless i) (hseen ▸ hturn order)
    refine ⟨_, d₂, hrun₂, ?_, howner₂, fun j hj => ?_, fun j hj => ?_, ?_⟩
    · rw [takers_append, htakers₁, htakers₂]
    · obtain ⟨hj, hji⟩ : j ∉ order ∧ j ≠ i := by simpa using hj
      rw [hothers₂ j hji, hothers₁ j hj]
    · by_cases hji : j = i
      · exact hji ▸ hend₂
      · rw [hothers₂ j hji]
        exact hends₁ j (by simpa [hji] using hj)
    · rw [hplan, ← hstart i, hseen] at hseen₂
      have halone : d₂.seen i = c.inTurn (order ++ [i]) := hseen₂.trans (inTurn_snoc c order i).symm
      rw [← halone]
      exact ⟨rfl, rfl, rfl, rfl, rfl, rfl⟩

end
end Crowd
end ConfigSteward
