import ConfigSteward.Proofs.Backup.Keeping
import ConfigSteward.Proofs.Concurrency.Crowd
import ConfigSteward.Proofs.Files.Written
import ConfigSteward.Proofs.World.Noon
import Mathlib.Data.Set.Finite.Lemmas
import Mathlib.Data.String.Basic

/-!
# Locks taken in order

A plan that takes its locks by holding paths takes them in the order of the written places and gives
back the latest first. The locks that it owns can be read off the plan at any time, so no two plans
of a crowd are inside holds that share a place. Among the locks that are waited for there is a last
one; its owner waits for none after it, so it can go on.
-/
namespace ConfigSteward

variable {α β : Type}

/-- The plan neither takes nor gives back a lock. -/
def Plan.Lockless : Plan α → Prop
  | .done _ => True
  | .ask r next => r.Lockless ∧ ∀ reply, (next reply).Lockless

/-- What a path stands for, fixed for a whole run. -/
abbrev Standing := Path → Except Place Place

/-- A plan that takes locks by holding paths, one hold after the other, and may do anything else
besides. A hold's body may fail. -/
inductive Orderly : Plan α → Prop where
  | done (a : α) : Orderly (.done a)
  | ask {r : Request} {next : r.Reply → Plan α} (lockless : r.Lockless)
      (rest : ∀ reply, Orderly (next reply)) : Orderly (.ask r next)
  | hold {β : Type} {paths : List Path} {body : Task β} {rest : Except Failure β → Plan α}
      (written : ∀ p ∈ paths, Written p.parts) (lockless : body.run.Lockless)
      (orderly : ∀ result, Orderly (rest result)) : Orderly ((Lock.hold paths body).run >>= rest)

/-- A plan inside a hold of some paths, with all their locks taken. `body` is what is left of the
hold's body. -/
inductive Inside (stands : Standing) (paths : List Path) : Plan α → Prop where
  | body {β : Type} {locks : List Place} {body : Task β} {rest : Except Failure β → Plan α}
      (places : paths.map stands = locks.map .ok)
      (lockless : body.run.Lockless) (orderly : ∀ result, Orderly (rest result)) :
      Inside stands paths
        ((body.andThen (Lock.releaseAll (Lock.inOrder locks).reverse)).run >>= rest)

/-! ### The order of the locks -/

namespace Lock

private theorem nodup_eraseDups (locks : List Place) : locks.eraseDups.Nodup := by
  induction hn : locks.length using Nat.strong_induction_on generalizing locks with
  | _ n ih =>
    cases locks with
    | nil => simp
    | cons lock locks =>
      rw [List.eraseDups_cons, List.nodup_cons]
      refine ⟨by simp, ih _ ?_ _ rfl⟩
      have hfilter := List.length_filter_le (fun b => !b == lock) locks
      simp only [List.length_cons] at hn
      omega

private theorem mem_inOrder {locks : List Place} {lock : Place} :
    lock ∈ inOrder locks ↔ lock ∈ locks := by
  rw [inOrder, List.mem_mergeSort, List.mem_eraseDups]

private theorem sorted_inOrder {locks : List Place} (h : ∀ lock ∈ locks, Written lock) :
    (inOrder locks).Pairwise fun a b => a.path.text < b.path.text := by
  have hle : (inOrder locks).Pairwise fun a b => a.path.text ≤ b.path.text := by
    refine (List.pairwise_mergeSort ?_ ?_ locks.eraseDups).imp of_decide_eq_true
    · intro a b d hab hbd
      exact decide_eq_true (le_trans (of_decide_eq_true hab) (of_decide_eq_true hbd))
    · intro a b
      simpa using le_total a.path.text b.path.text
  have hne : (inOrder locks).Pairwise (· ≠ ·) :=
    (List.mergeSort_perm _ _).nodup_iff.mpr (nodup_eraseDups locks)
  refine (hle.and hne).imp_of_mem fun {a b} ha hb hab => lt_of_le_of_ne hab.1 fun heq => ?_
  exact hab.2 (Place.eq_of_text (h a (mem_inOrder.mp ha)) (h b (mem_inOrder.mp hb)) heq)

end Lock

/-! ### The locks that a plan owns -/

/-- Whether a request may be answered so, given what paths stand for. -/
def Request.Answers (stands : Standing) : (r : Request) → r.Reply → Prop
  | resolve p, reply => reply = stands p
  | _, _ => True

theorem Request.exists_answer (stands : Standing) (r : Request) : ∃ reply, r.Answers stands reply := by
  cases r with
  | resolve p => exact ⟨stands p, rfl⟩
  | clock => exact ⟨Civil.ofSeconds 0, trivial⟩
  | latest artifact => exact ⟨none, trivial⟩
  | note | acquire | release => exact ⟨(), trivial⟩
  | run args => exact ⟨.error .noFileNamed, trivial⟩
  | _ => exact ⟨.error ⟨.noEntry, "", none⟩, trivial⟩

/-- The plan owns the locks `held`, the latest first. Every lock that it takes comes after those that
it owns, it gives back the latest first, and it ends with none. -/
inductive Owning (stands : Standing) : List Place → Plan α → Prop where
  | done (a : α) : Owning stands [] (.done a)
  | acquire {held : List Place} {lock : Place} {next : Unit → Plan α}
      (later : ∀ l ∈ held, l.path.text < lock.path.text)
      (rest : Owning stands (lock :: held) (next ())) :
      Owning stands held (.ask (.acquire lock) next)
  | release {held : List Place} {lock : Place} {next : Unit → Plan α}
      (rest : Owning stands held (next ())) :
      Owning stands (lock :: held) (.ask (.release lock) next)
  | ask {held : List Place} {r : Request} {next : r.Reply → Plan α} (lockless : r.Lockless)
      (rest : ∀ reply, r.Answers stands reply → Owning stands held (next reply)) :
      Owning stands held (.ask r next)

namespace Owning

variable {stands : Standing} {held held' : List Place} {p : Plan α}

/-- The locks can be read off the plan. -/
theorem unique (h : Owning stands held p) (h' : Owning stands held' p) : held = held' := by
  induction h generalizing held' with
  | done a =>
    cases h' with
    | done => rfl
  | acquire later rest ih =>
    cases h' with
    | acquire later' rest' => exact (List.cons.inj (ih rest')).2
    | ask lockless => exact lockless.elim
  | release rest ih =>
    cases h' with
    | release rest' => rw [ih rest']
    | ask lockless => exact lockless.elim
  | @ask held r next lockless rest ih =>
    cases h' with
    | acquire | release => exact lockless.elim
    | ask lockless' rest' =>
      obtain ⟨reply, hreply⟩ := r.exists_answer stands
      exact ih reply hreply (rest' reply hreply)

private theorem of_lockless {q : Plan β} {rest : β → Plan α} (h : q.Lockless)
    (hrest : ∀ b, Owning stands held (rest b)) : Owning stands held (q >>= rest) := by
  induction q with
  | done b => exact hrest b
  | ask r next ih => exact .ask h.1 fun reply _ => ih reply (h.2 reply)

private theorem of_acquireAll {locks : List Place} {rest : Unit → Plan α}
    (hsorted : (held.reverse ++ locks).Pairwise fun a b => a.path.text < b.path.text)
    (hrest : Owning stands (locks.reverse ++ held) (rest ())) :
    Owning stands held (Lock.acquireAll locks >>= rest) := by
  induction locks generalizing held with
  | nil => exact hrest
  | cons lock locks ih =>
    refine .acquire (fun l hl => ?_) ?_
    · exact (List.pairwise_append.mp hsorted).2.2 l (List.mem_reverse.mpr hl) lock
        List.mem_cons_self
    · refine ih ?_ ?_
      · simpa using hsorted
      · simpa using hrest

private theorem of_releaseAll {locks : List Place} {rest : Unit → Plan α}
    (hrest : Owning stands held (rest ())) :
    Owning stands (locks ++ held) (Lock.releaseAll locks >>= rest) := by
  induction locks with
  | nil => exact hrest
  | cons lock locks ih => exact .release ih

private theorem of_places {paths : List Path} {rest : Except Failure (List Place) → Plan α}
    (hok : ∀ locks, paths.map stands = locks.map .ok → Owning stands held (rest (.ok locks)))
    (herror : ∀ failure, Owning stands held (rest (.error failure))) :
    Owning stands held ((Lock.places paths).run >>= rest) := by
  induction paths generalizing rest with
  | nil => exact hok [] rfl
  | cons p paths ih =>
    refine .ask trivial fun reply hreply => ?_
    cases hreply
    cases hp : stands p with
    | error place => exact herror _
    | ok place =>
      change Owning stands held
        ((Lock.places paths >>= fun locks => pure (place :: locks) : Task _).run >>= rest)
      rw [ExceptT.run_bind, bind_assoc]
      exact ih (fun locks hlocks => hok (place :: locks) (by simp [hp, hlocks])) herror

end Owning

/-! ### Holds -/

/-- The places that paths stand for are made of names that a path could hold. -/
def Standing.Proper (stands : Standing) : Prop :=
  ∀ p place, Written p.parts → stands p = .ok place → Written place

variable {stands : Standing} {p : Plan α}

theorem Standing.Proper.places (h : stands.Proper) {paths : List Path} {locks : List Place}
    (hwritten : ∀ p ∈ paths, Written p.parts) (hplaces : paths.map stands = locks.map .ok) :
    ∀ lock ∈ locks, Written lock := by
  intro lock hlock
  have hmem : Except.ok lock ∈ paths.map stands := hplaces ▸ List.mem_map_of_mem hlock
  obtain ⟨path, hpath, hstands⟩ := List.mem_map.mp hmem
  exact h path lock (hwritten path hpath) hstands

/-- A plan that takes locks by holding paths owns none before and after. -/
theorem Orderly.owning (hproper : stands.Proper) (h : Orderly p) : Owning stands [] p := by
  induction h with
  | done a => exact .done a
  | ask lockless _ ih => exact .ask lockless fun reply _ => ih reply
  | @hold β paths body rest written lockless _ ih =>
    rw [Lock.hold_run, bind_assoc]
    refine .of_places (fun locks hlocks => ?_) fun failure => ih (.error failure)
    have hsorted := Lock.sorted_inOrder (hproper.places written hlocks)
    dsimp only
    rw [bind_assoc]
    refine .of_acquireAll (by simpa using hsorted) ?_
    rw [Task.andThen_run, bind_assoc]
    refine .of_lockless lockless fun result => ?_
    rw [bind_assoc]
    exact .of_releaseAll (ih result)

/-- Inside a hold a plan owns just the locks of what the paths stand for. -/
theorem Inside.owning (hproper : stands.Proper) {paths : List Path} (h : Inside stands paths p) :
    ∃ held, Owning stands held p ∧
      ∀ path ∈ paths, ∃ lock ∈ held, stands path = .ok lock := by
  cases h with
  | @body β locks body rest places lockless orderly =>
    refine ⟨(Lock.inOrder locks).reverse, ?_, fun path hpath => ?_⟩
    · rw [Task.andThen_run, bind_assoc]
      refine .of_lockless lockless fun result => ?_
      rw [bind_assoc]
      simpa using Owning.of_releaseAll ((orderly result).owning hproper)
    · have hmem : stands path ∈ locks.map .ok := places ▸ List.mem_map_of_mem hpath
      obtain ⟨lock, hlock, hstands⟩ := List.mem_map.mp hmem
      exact ⟨lock, by simpa [Lock.mem_inOrder] using hlock, hstands.symm⟩

/-! ### Crowds that keep their locks in order -/

namespace Crowd

variable {ι : Type} {c c' : Crowd ι α} {events : List (ι × Request)} {i j : ι} {r : Request}

/-- Paths stand for what `stands` says. -/
def Stands (c : Crowd ι α) (stands : Standing) : Prop :=
  ∀ p, c.world.tree.resolve c.world.here p = stands p

/-- Every plan owns locks in order, and the crowd's owners are just these. -/
def Tidy (stands : Standing) (c : Crowd ι α) : Prop :=
  ∀ i, ∃ held, Owning stands held (c.plan i) ∧ held.Nodup ∧
    ∀ lock, c.owner lock = some i ↔ lock ∈ held

theorem Tidy.owning (h : c.Tidy stands) {held : List Place} (hi : Owning stands held (c.plan i))
    {lock : Place} : c.owner lock = some i ↔ lock ∈ held := by
  obtain ⟨held', howning, -, howner⟩ := h i
  rw [hi.unique howning]
  exact howner lock

private theorem perform_answers (hstands : c.Stands stands) (i : ι) (r : Request) :
    r.Answers stands ((c.seen i).perform r).1 := by
  cases r with
  | resolve p => exact hstands p
  | _ => trivial

private theorem stands_proper {stands : Standing} (hhere : Written c.world.here) (h : c.Stands stands) :
    stands.Proper := by
  intro p place hp hplace
  exact Tree.written_resolve hhere hp ((h p).trans hplace)

private theorem tidy_start (hproper : stands.Proper) (hfree : ∀ lock, c.owner lock = none)
    (horderly : ∀ i, Orderly (c.plan i)) : c.Tidy stands :=
  fun i => ⟨[], (horderly i).owning hproper, List.nodup_nil, fun lock => by simp [hfree lock]⟩

variable [DecidableEq ι]

/-- A step keeps the locks in order. -/
theorem Step.tidy (hstep : c.Step i r c') (hstands : c.Stands stands) (h : c.Tidy stands) :
    c'.Tidy stands := by
  intro j
  obtain ⟨held, howning, hnodup, howner⟩ := h j
  cases hstep with
  | @acquire lock next asks free =>
    by_cases hji : j = i
    · subst hji
      rw [asks] at howning
      cases howning with
      | acquire later rest =>
        have hlock : lock ∉ held := fun hmem => by simp [(howner lock).mpr hmem] at free
        refine ⟨lock :: held, by simpa using rest, List.nodup_cons.mpr ⟨hlock, hnodup⟩, ?_⟩
        intro l
        by_cases hl : l = lock
        · simp [hl]
        · simp [hl, howner l]
      | ask lockless => exact lockless.elim
    · refine ⟨held, by simpa [hji] using howning, hnodup, fun l => ?_⟩
      by_cases hl : l = lock
      · subst hl
        have hlock : l ∉ held := fun hmem => by simp [(howner l).mpr hmem] at free
        simp [hlock, Ne.symm hji]
      · simp [hl, howner l]
  | @release lock next asks =>
    obtain ⟨held', howning', hnodup', howner'⟩ := h i
    rw [asks] at howning'
    cases howning' with
    | @release rest_held _ _ rest =>
      obtain ⟨hlock, hrest⟩ := List.nodup_cons.mp hnodup'
      by_cases hji : j = i
      · subst hji
        refine ⟨rest_held, by simpa using rest, hrest, fun l => ?_⟩
        by_cases hl : l = lock
        · simp [hl, hlock]
        · simp [hl, howner' l]
      · refine ⟨held, by simpa [hji] using howning, hnodup, fun l => ?_⟩
        by_cases hl : l = lock
        · subst hl
          have hmine : c.owner l = some i := (howner' l).mpr List.mem_cons_self
          have hother : l ∉ held := fun hmem => by
            rw [(howner l).mpr hmem] at hmine
            exact hji (Option.some.inj hmine)
          simp [hother]
        · simp [hl, howner l]
    | ask lockless => exact lockless.elim
  | @act r next lockless asks =>
    by_cases hji : j = i
    · subst hji
      rw [asks] at howning
      cases howning with
      | acquire | release => exact lockless.elim
      | ask _ rest =>
        exact ⟨held, by simpa using rest _ (perform_answers hstands j r), hnodup, howner⟩
    · exact ⟨held, by simpa [hji] using howning, hnodup, howner⟩

theorem Runs.tidy (hrun : c.Runs events c') (h : c.Tidy stands)
    (hstands : ∀ events' d, c.Runs events' d → d.Stands stands) : c'.Tidy stands := by
  induction hrun with
  | start => exact h
  | step run step ih => exact step.tidy (hstands _ _ run) ih

/-- In a crowd that keeps its locks in order somebody can go on: of the locks that are waited for,
the last one is free or has an owner that waits for none. -/
theorem Tidy.exists_step [Finite ι] (h : c.Tidy stands) (hopen : ∃ i, ¬ (c.plan i).Finished) :
    ∃ i r c', c.Step i r c' := by
  by_contra hstuck
  -- Whoever has not finished waits for a lock that somebody owns.
  have hwaits : ∀ i, ¬ (c.plan i).Finished →
      ∃ lock next, c.plan i = .ask (.acquire lock) next ∧ c.owner lock ≠ none := by
    intro i hi
    by_contra hno
    refine hstuck ⟨i, Crowd.exists_step hi fun lock next hplan => ?_⟩
    by_contra howned
    exact hno ⟨lock, next, hplan, howned⟩
  choose! lockOf nextOf hplan howned using hwaits
  obtain ⟨i, hi, hmax⟩ := Set.exists_max_image { i | ¬ (c.plan i).Finished }
    (fun i => (lockOf i).path.text) (Set.toFinite _) hopen
  obtain ⟨j, hj⟩ := Option.ne_none_iff_exists'.mp (howned i hi)
  obtain ⟨held, howning, -, howner⟩ := h j
  have hmem : lockOf i ∈ held := (howner _).mp hj
  have hjopen : ¬ (c.plan j).Finished := by
    rintro ⟨a, ha⟩
    rw [ha] at howning
    cases howning
    simp at hmem
  rw [hplan j hjopen] at howning
  cases howning with
  | acquire later rest => exact absurd (hmax j hjopen) (not_le_of_gt (later _ hmem))
  | ask lockless => exact lockless.elim

/-- Without links and without programs that touch files, what paths stand for is fixed. -/
theorem Runs.stands_placeFrom (hrun : c.Runs events c') (hc : c.world.Regular) (hquiet : c.Quiet) :
    c'.Stands fun p => .ok (p.placeFrom c.world.here) := by
  obtain ⟨hregular, hhere⟩ := hrun.regular hc hquiet
  intro p
  rw [hregular.linkless.resolve_eq, hhere]

/-- Plans that hold paths, one hold after the other, are never inside holds of one place together;
as long as one has not finished, one of them can go on; and between its holds a plan owns no lock. -/
theorem holds_exclude_and_go_on [Finite ι] (hfree : ∀ lock, c.owner lock = none)
    (horderly : ∀ i, Orderly (c.plan i)) (hhere : Written c.world.here)
    (hstands : ∀ events' d, c.Runs events' d → d.Stands stands) (hrun : c.Runs events c') :
    (∀ i j paths paths', i ≠ j → Inside stands paths (c'.plan i) →
        Inside stands paths' (c'.plan j) → ∀ p ∈ paths, ∀ q ∈ paths', stands p ≠ stands q) ∧
      ((∃ i, ¬ (c'.plan i).Finished) → ∃ i r d, c'.Step i r d) ∧
      ∀ i, Orderly (c'.plan i) → ∀ lock, c'.owner lock ≠ some i := by
  have hproper := stands_proper hhere (hstands _ c .start)
  have htidy : c'.Tidy stands := hrun.tidy (tidy_start hproper hfree horderly) hstands
  refine ⟨?_, htidy.exists_step, ?_⟩
  · intro i j paths paths' hij hi hj p hp q hq heq
    obtain ⟨held, howning, hheld⟩ := hi.owning hproper
    obtain ⟨held', howning', hheld'⟩ := hj.owning hproper
    obtain ⟨lock, hlock, hp'⟩ := hheld p hp
    obtain ⟨lock', hlock', hq'⟩ := hheld' q hq
    have hsame : lock = lock' := Except.ok.inj ((hp'.symm.trans heq).trans hq')
    have howner := (htidy.owning howning).mpr hlock
    rw [hsame, (htidy.owning howning').mpr hlock'] at howner
    exact hij (Option.some.inj howner).symm
  · intro i hi lock howner
    simpa using (htidy.owning (hi.owning hproper)).mp howner

/-- Two plans that hold one file, written in two ways, each to read the clock. -/
def pair : Crowd Bool (Except Failure Civil) where
  world := .atNoon .empty
  programs _ := .replying (.error .noFileNamed)
  owner _ := none
  plan i := (Lock.hold [if i then ⟨.one, ["a"]⟩ else ⟨.two, ["b", "..", "a"]⟩]
    (Task.request .clock)).run

/-- The first of them has taken the lock. -/
def pairHeld : Crowd Bool (Except Failure Civil) :=
  { pair with
    owner := Function.update pair.owner ["a"] (some true)
    plan := Function.update pair.plan true
      ((Task.request .clock).andThen (Lock.releaseAll [["a"]])).run }

private theorem pair_regular : pair.world.Regular := by
  refine ⟨⟨Tree.sound_of_entries ?_, rfl⟩, Tree.linkless_of_entries ?_⟩ <;>
    simp [pair, Tree.empty]

private theorem pair_runs :
    pair.Runs [(true, .resolve ⟨.one, ["a"]⟩), (true, .acquire ["a"])] pairHeld := by
  have hfind : pair.Step true (.resolve ⟨.one, ["a"]⟩) _ :=
    .act trivial (Lock.hold_singleton_run _ _)
  have hplace : ((pair.seen true).perform (.resolve ⟨.one, ["a"]⟩)).1 = .ok ["a"] :=
    pair_regular.linkless.resolve_eq [] _
  rw [hplace] at hfind
  refine .step (.step .start hfind) ?_
  have htake := Step.acquire (c := { pair with
    plan := Function.update pair.plan true (.ask (.acquire ["a"]) fun _ =>
      ((Task.request .clock).andThen (Lock.releaseAll [["a"]])).run) })
    (i := true) rfl rfl
  rw [Function.update_idem] at htake
  exact htake

/-- While the first plan is inside, the second cannot come in by another spelling of the path. -/
theorem holds_exclude_and_go_on_pair :
    pair.Runs [(true, .resolve ⟨.one, ["a"]⟩), (true, .acquire ["a"])] pairHeld ∧
      Inside (fun p => .ok (p.placeFrom [])) [⟨.one, ["a"]⟩] (pairHeld.plan true) ∧
      ¬ Inside (fun p => .ok (p.placeFrom [])) [⟨.two, ["b", "..", "a"]⟩] (pairHeld.plan false) ∧
      (∃ i r d, pairHeld.Step i r d) ∧ ∀ lock, pairHeld.owner lock ≠ some false := by
  have horderly : ∀ i, Orderly (pair.plan i) := fun i => by
    refine bind_pure (pair.plan i) ▸ .hold ?_ ⟨trivial, fun _ => trivial⟩ .done
    cases i <;> simp [Written]
  have hinside : Inside (fun p => .ok (p.placeFrom [])) [⟨.one, ["a"]⟩] (pairHeld.plan true) := by
    have hplan : pairHeld.plan true = ((Task.request .clock).andThen
        (Lock.releaseAll (Lock.inOrder [["a"]]).reverse)).run >>= .done := by
      rw [Lock.inOrder_singleton]
      rfl
    rw [hplan]
    exact .body rfl ⟨trivial, fun _ => trivial⟩ .done
  obtain ⟨hexclude, hgo, houtside⟩ := holds_exclude_and_go_on (fun _ => rfl) horderly
    (by simp [Written, pair]) (fun _ _ h => h.stands_placeFrom pair_regular fun _ _ _ _ => rfl)
    pair_runs
  refine ⟨pair_runs, hinside, fun hother => ?_, hgo ⟨true, ?_⟩, houtside false (horderly false)⟩
  · exact hexclude true false _ _ (by decide) hinside hother _ List.mem_cons_self _
      List.mem_cons_self rfl
  · rintro ⟨a, ha⟩
    cases ha

end Crowd
end ConfigSteward
