import ConfigSteward.Proofs.Concurrency.Turns
import ConfigSteward.Proofs.Site.Turns

/-!
# Calls at one file are serialisable

Calls that are made at the same time on one file answer, and leave the tree, as they do one after
the other in the order in which they take the file's lock. So a backup holds what the one before left
in the file, never content that was not yet found good, and putting back undoes nothing but the
call's own change.
-/
namespace ConfigSteward

open Plan

namespace Site

variable {s : Site} {w v : World} {p : Path} {c : Call} {st : Step}

/-! ### Calls that work on one file hold it -/

private theorem hold_answer_run {β : Type} (p : Path) (task : Task β) (f : β → Answer) :
    (Lock.hold [p] task >>= fun b => pure (f b) : Task Answer).run =
      .guarded p (task.run >>= fun r => .done (r.map f)) fun place => .error (.linkLoop place) := by
  rw [ExceptT.run_bind, Lock.hold_singleton_run, Plan.guarded, ask_bind]
  refine congrArg (Plan.ask (.resolve p)) (funext fun reply => ?_)
  cases reply with
  | error place => rfl
  | ok lock =>
    refine congrArg (Plan.ask (.acquire lock)) (funext fun _ => ?_)
    change (task.run >>= fun r => Lock.releaseAll [lock] >>= fun _ => .done r) >>= _ = _
    rw [Plan.yielding, bind_assoc, bind_assoc]
    refine congrArg (task.run >>= ·) (funext fun r => ?_)
    cases r <;> rfl

private theorem guarded_call (hc : c.WorksOn s p) : ∃ body : Plan (Except Failure Answer), body.Lockless ∧
    (s.call c).run = .guarded p body fun place => .error (.linkLoop place) := by
  have hanswer {β : Type} {whole task : Task β} (f : β → Answer) (h : Working task)
      (heq : whole = Lock.hold [p] task) :
      ∃ body : Plan (Except Failure Answer), body.Lockless ∧
        (whole >>= fun b => pure (f b) : Task Answer).run =
          .guarded p body fun place => .error (.linkLoop place) := by
    refine ⟨_, ?_, heq ▸ hold_answer_run p task f⟩
    exact (h _ Lockless.working).bind fun r => by cases r <;> trivial
  cases c with
  | saveConfig content =>
    cases content with
    | whole text =>
      obtain rfl : s.config = p := hc
      exact hanswer .outcome (fun K h => h.saveSteps _ s.store s.controller) rfl
    | broken text => exact hc.elim
  | createBackup =>
    obtain rfl : s.config = p := hc
    obtain ⟨task, hworking, heq⟩ := createBackup_eq_hold s
    exact hanswer .backup hworking heq
  | saveServer name content =>
    cases content with
    | whole text =>
      have hp : s.serverPath name = .ok p := hc
      refine hanswer .outcome (fun K h => h.saveSteps (s.serverSave p text) s.store s.controller) ?_
      simp only [saveServer, serverPathTask, hp, pure_bind]
      rfl
    | broken text => exact hc.elim
  | createServer name content =>
    obtain ⟨task, hworking, heq⟩ := createServer_eq_hold content hc
    exact hanswer .created hworking heq
  | deleteServer name =>
    obtain ⟨task, hworking, heq⟩ := deleteServer_eq_hold hc
    exact hanswer .deleted hworking heq
  | _ => exact hc.elim

/-! ### One call after the other -/

/-- What every call of an order leaves to the next one. -/
theorem advance_turns (hw : w.Regular) (hquiet : (st.meets w).Quiet) (hs : ".." ∉ s.store.folder)
    (hc : st.call.WorksOn s p) : s.Turns p w st.call (s.calls.reply w st) (s.calls.advance w st) := by
  obtain ⟨spares, commits, content, restores, reports⟩ :=
    (does_turn hc (hw.of_alike (st.meets_alike w)) hquiet hs).ends
  exact ⟨spares, commits, content, restores, reports⟩

section
variable {ι : Type} {step : ι → Step} {order past : List ι} {q : Place} {bytes : Bytes}

/-- Bytes that may stand in the file: those from the start, and what a call put there for good. -/
def Vouched (s : Site) (p : Path) (w : World) (step : ι → Step) (order : List ι) (bytes : Bytes) :
    Prop :=
  w.tree.bytesAt (p.placeFrom w.here) = some bytes ∨ ∃ pre i post, order = pre ++ i :: post ∧
    Commits (step i).call (s.calls.reply (s.calls.after w (pre.map step)) (step i)) bytes

theorem Vouched.longer (h : s.Vouched p w step order bytes) (more : List ι) :
    s.Vouched p w step (order ++ more) bytes := by
  rcases h with h | ⟨pre, i, post, rfl, hcommits⟩
  · exact .inl h
  · exact .inr ⟨pre, i, post ++ more, by simp, hcommits⟩

variable (hw : w.Regular) (hs : ".." ∉ s.store.folder) (hquiet : ∀ i v, ((step i).meets v).Quiet)
  (hcalls : ∀ i, (step i).call.WorksOn s p)
include hw hquiet

private theorem after_regular (order : List ι) : (s.calls.after w (order.map step)).Regular := by
  refine regular_after hw fun st hst => ?_
  obtain ⟨i, -, rfl⟩ := List.mem_map.mp hst
  exact hquiet i w

private theorem finds_after (order : List ι) :
    (s.calls.after w (order.map step)).Finds p (p.placeFrom w.here) := by
  rw [World.Finds, (after_regular hw hquiet order).linkless.resolve_eq, after_here]

include hs hcalls

private theorem turns_after (order : List ι) (i : ι) :
    s.Turns p (s.calls.after w (order.map step)) (step i).call
      (s.calls.reply (s.calls.after w (order.map step)) (step i))
      (s.calls.after w ((order ++ [i]).map step)) := by
  rw [List.map_append, Calls.after_append]
  exact advance_turns (after_regular hw hquiet order) (hquiet i _) hs (hcalls i)

/-- Whatever the file holds between two calls is vouched for. -/
theorem vouched_after (order : List ι)
    (hbytes : (s.calls.after w (order.map step)).tree.bytesAt (p.placeFrom w.here) = some bytes) :
    s.Vouched p w step order bytes := by
  induction order using List.reverseRecOn with
  | nil => exact .inl hbytes
  | append_singleton order i ih =>
    have hturn := turns_after hw hs hquiet hcalls order i
    have hcontent := hturn.content bytes
    rw [after_here] at hcontent
    rcases hcontent hbytes with hcommits | hbefore
    · exact .inr ⟨order, i, [], rfl, hcommits⟩
    · exact (ih hbefore).longer [i]

private theorem vouched_held (order : List ι) :
    ((s.calls.after w (order.map step)).held p).getD [] = [] ∨
      s.Vouched p w step order (((s.calls.after w (order.map step)).held p).getD []) := by
  rcases hheld : (s.calls.after w (order.map step)).held p with _ | content
  · exact .inl rfl
  · refine .inr (vouched_after hw hs hquiet hcalls order ?_)
    have hbytes := Save.Prior.bytesAt (p := p) (after_regular (s := s) hw hquiet order)
      (World.held_eq_some_iff.mp hheld)
    rwa [after_here] at hbytes

/-- A backup that was made is vouched for, and is empty where the file was absent. -/
theorem backup_vouched (order : List ι) (howns : s.store.Owns q) (hq : q ≠ p.placeFrom w.here)
    (hbytes : (s.calls.after w (order.map step)).tree.bytesAt q = some bytes) :
    w.tree.bytesAt q = some bytes ∨ bytes = [] ∨ s.Vouched p w step order bytes := by
  induction order using List.reverseRecOn with
  | nil => exact .inl hbytes
  | append_singleton order i ih =>
    have hspares := (turns_after hw hs hquiet hcalls order i).spares
    rw [after_here] at hspares
    rcases hspares.bytesAt howns hq hbytes with hbefore | rfl
    · exact (ih hbefore).imp_right fun h => h.imp_right fun h => h.longer [i]
    · exact .inr ((vouched_held hw hs hquiet hcalls order).imp_right fun h => h.longer [i])

/-- What a backup holds it keeps. -/
theorem backup_kept (order more : List ι) (howns : s.store.Owns q) (hq : q ≠ p.placeFrom w.here)
    (hbytes : (s.calls.after w (order.map step)).tree.bytesAt q = some bytes) :
    (s.calls.after w ((order ++ more).map step)).tree.bytesAt q = some bytes := by
  induction more using List.reverseRecOn with
  | nil => rwa [List.append_nil]
  | append_singleton more i ih =>
    have hspares := (turns_after hw hs hquiet hcalls (order ++ more) i).spares
    rw [after_here] at hspares
    rw [← List.append_assoc]
    exact hspares.kept howns hq ih

end

/-! ### Calls at the same time -/

/-- Calls that are made at the same time, each with programs of its own. -/
def crowd {ι : Type} (s : Site) (w : World) (step : ι → Step) : Crowd ι (Except Failure Answer) where
  world := w
  programs i := (step i).programs
  owner _ := none
  plan i := (s.call (step i).call).run

/-- A crowd of calls at one file has come so far as the calls would one after the other, in the
order in which they took the lock. -/
structure Serialised {ι : Type} (s : Site) (p : Path) (w : World) (step : ι → Step) (order : List ι)
    (c : Crowd ι (Except Failure Answer)) : Prop where
  /-- Every call takes the lock once. -/
  once : order.Nodup
  /-- A call that has ended gives the answer that it gives after the calls before it. -/
  answers : ∀ pre i post r, order = pre ++ i :: post → c.plan i = .done r →
    r = s.calls.reply (s.calls.after w (pre.map step)) (step i)
  /-- Once all have ended, all took the lock and the tree is the one that they leave in order. -/
  ended : (∀ i, (c.plan i).Finished) →
    (∀ i, i ∈ order) ∧ c.world.tree = (s.calls.after w (order.map step)).tree
  /-- The backup that an answer reports holds what the call before left in the file. -/
  reported : ∀ pre i post r name, order = pre ++ i :: post → c.plan i = .done r → Reports r name →
    c.world.tree.bytesAt (s.store.folder ++ [name])
      = some (((s.calls.after w (pre.map step)).held p).getD [])
  /-- A new backup holds, perhaps not yet in full, nothing or content that was in the file at the
  start or was put there for good by a call that has ended. -/
  vouched : ∀ q bytes, s.store.Owns q → q ≠ p.placeFrom w.here →
    c.world.tree.bytesAt q = some bytes → w.tree.bytesAt q = some bytes ∨
      ∃ content, bytes <+: content ∧
        (content = [] ∨ w.tree.bytesAt (p.placeFrom w.here) = some content ∨
          ∃ i r, c.plan i = .done r ∧ Commits (step i).call r content)
  /-- A call that rolls back leaves the file as the call before left it. -/
  restored : ∀ pre i post r, order = pre ++ i :: post → c.plan i = .done r → RolledBack r →
    (s.calls.after w ((pre ++ [i]).map step)).held p = (s.calls.after w (pre.map step)).held p

section
variable {ι : Type} {step : ι → Step} {order past : List ι} {events : List (ι × Request)}
  {c : Crowd ι (Except Failure Answer)} {i : ι} {body : ι → Plan (Except Failure Answer)}

private theorem meets_eq (st : Step) (h : st.clock = v.clock) :
    st.meets v = { v with programs := st.programs } := by
  rw [Step.meets, h]

section
variable (hclock : ∀ i, (step i).clock = w.clock)
include hclock

private theorem after_clock (order : List ι) : (s.calls.after w (order.map step)).clock = w.clock := by
  induction order using List.reverseRecOn with
  | nil => rfl
  | append_singleton order i ih =>
    rw [List.map_append, Calls.after_append]
    exact (run_clock _ _).trans (hclock i)

private theorem alone_crowd (order : List ι) (i : ι) :
    (s.crowd w step).alone (s.calls.after w (order.map step)) i =
      (s.calls.reply (s.calls.after w (order.map step)) (step i),
        s.calls.advance (s.calls.after w (order.map step)) (step i)) := by
  have hmeets := meets_eq (v := s.calls.after w (order.map step)) (step i)
    ((hclock i).trans (after_clock hclock order).symm)
  rw [reply_eq, advance_eq, hmeets]
  rfl

private theorem inTurn_crowd (order : List ι) :
    (s.crowd w step).inTurn order = s.calls.after w (order.map step) := by
  induction order using List.reverseRecOn with
  | nil => rfl
  | append_singleton order i ih =>
    rw [Crowd.inTurn_snoc, ih, alone_crowd hclock, List.map_append, Calls.after_append]
    rfl

end

/-- A crowd of calls whose first ones have ended, the last of which perhaps is in the middle. -/
structure Halfway (s : Site) (p : Path) (w : World) (step : ι → Step) (order past : List ι)
    (c : Crowd ι (Except Failure Answer)) : Prop where
  front : past <+: order
  served : ∀ pre i post, past = pre ++ i :: post →
    c.plan i = .done (s.calls.reply (s.calls.after w (pre.map step)) (step i))
  others : ∀ i ∉ past, ¬ (c.plan i).Finished
  ended : past = order → c.world.tree = (s.calls.after w (order.map step)).tree
  spares : s.store.Spares (· <+: ·) (s.calls.after w (past.map step)) (p.placeFrom w.here)
    (((s.calls.after w (past.map step)).held p).getD []) c.world

/-- A call that has ended is one of the first. -/
theorem Halfway.split (h : s.Halfway p w step order past c) (honce : order.Nodup) {pre post : List ι}
    (horder : order = pre ++ i :: post) (hi : (c.plan i).Finished) :
    ∃ post', past = pre ++ i :: post' := by
  have hmem : i ∈ past := by
    by_contra hnot
    exact h.others i hnot hi
  have hpre : i ∉ pre := fun hin =>
    (List.nodup_append.mp (horder ▸ honce)).2.2 i hin i List.mem_cons_self rfl
  obtain ⟨more, hmore⟩ := h.front
  rw [horder] at hmore
  rcases List.append_eq_append_iff.mp hmore with ⟨as, rfl, -⟩ | ⟨as, rfl, has⟩
  · exact absurd (List.mem_append_left as hmem) hpre
  · cases as with
    | nil => exact absurd (by simpa using hmem) hpre
    | cons j as =>
      obtain ⟨rfl, -⟩ := List.cons.inj has
      exact ⟨as, rfl⟩

section
variable (hw : w.Regular) (hs : ".." ∉ s.store.folder) (hclock : ∀ i, (step i).clock = w.clock)
  (hquiet : ∀ i v, ((step i).meets v).Quiet) (hcalls : ∀ i, (step i).call.WorksOn s p)
include hw hs hclock hquiet hcalls

/-- The tree in the middle of a call. -/
theorem spares_of_serves
    (hbody : ∀ i, (s.call (step i).call).run = .guarded p (body i) fun q => .error (.linkLoop q))
    {rest : Plan (Except Failure Answer)}
    (h : (s.crowd w step).Serves c (p.placeFrom w.here) body past i rest) :
    s.store.Spares (· <+: ·) (s.calls.after w (past.map step)) (p.placeFrom w.here)
      (((s.calls.after w (past.map step)).held p).getD []) c.world := by
  have hreaches := h.reaches
  rw [inTurn_crowd hclock] at hreaches
  have hmeets := meets_eq (v := s.calls.after w (past.map step)) (step i)
    ((hclock i).trans (after_clock hclock past).symm)
  have hregular := (after_regular (s := s) hw hquiet past).of_alike ((step i).meets_alike _)
  have hpasses : (s.call (step i).call).run.Passes ((step i).meets (s.calls.after w (past.map step)))
      (c.seen i) := by
    rw [hbody i, hmeets]
    exact guarded_passes (finds_after hw hquiet past) hreaches.passes
  have hspared := (does_turn (hcalls i) hregular (hquiet i _) hs).through _ hpasses
  have hplace : p.placeFrom ((step i).meets (s.calls.after w (past.map step))).here = p.placeFrom w.here :=
    congrArg (Path.placeFrom · p) (s.after_here w (past.map step))
  rw [Spared, hplace] at hspared
  exact hspared

private theorem halfway_of_progress [DecidableEq ι]
    (hbody : ∀ i, (s.call (step i).call).run = .guarded p (body i) fun q => .error (.linkLoop q))
    (h : (s.crowd w step).Progress c (p.placeFrom w.here) body order) :
    ∃ past, s.Halfway p w step order past c := by
  have hcoming (i : ι) (hi : i ∉ order) : ¬ (c.plan i).Finished := by
    rintro ⟨a, ha⟩
    rcases h.comes i hi with hplan | hplan
    · rw [show (s.crowd w step).plan i = _ from hbody i, ha] at hplan
      cases hplan
    · rw [ha] at hplan
      cases hplan
  have hserved {past : List ι} (h : (s.crowd w step).Served c.plan past) : ∀ pre i post,
      past = pre ++ i :: post →
        c.plan i = .done (s.calls.reply (s.calls.after w (pre.map step)) (step i)) := by
    intro pre i post heq
    rw [h pre i post heq, inTurn_crowd hclock, alone_crowd hclock]
  rcases h.turn with ⟨-, hall, hmatches⟩ | ⟨past, i, rest, horder, hpast, hserves⟩
  · rw [inTurn_crowd hclock] at hmatches
    refine ⟨order, List.prefix_rfl, hserved hall, hcoming, fun _ => hmatches.tree, ?_⟩
    exact fun q _ _ => .inl (by rw [hmatches.tree])
  · refine ⟨past, horder ▸ List.prefix_append past [i], hserved hpast, fun j hj => ?_, ?_,
      spares_of_serves hw hs hclock hquiet hcalls hbody hserves⟩
    · by_cases hji : j = i
      · subst hji
        rintro ⟨a, ha⟩
        have hplan := hserves.plan.symm.trans ha
        cases rest <;> cases hplan
      · exact hcoming j (by simp [horder, hj, hji])
    · intro heq
      simp [heq] at horder

end

/-- Calls on one file are serialisable in the order in which they take its lock, whatever their
steps come between and whatever the programs answer. -/
theorem calls_serialise [DecidableEq ι] (hw : w.Regular) (hs : ".." ∉ s.store.folder)
    (hclock : ∀ i, (step i).clock = w.clock) (hquiet : ∀ i, ((step i).meets w).Quiet)
    (hcalls : ∀ i, (step i).call.WorksOn s p) (hrun : (s.crowd w step).Runs events c) :
    s.Serialised p w step (takers events) c := by
  have hquiet' : ∀ i v, ((step i).meets v).Quiet := fun i _ => hquiet i
  choose body hlockless hbody using fun i => guarded_call (hcalls i)
  have hcrowd : (s.crowd w step).Quiet := fun i => hquiet i
  have hturn (order : List ι) : ((s.crowd w step).inTurn order).Finds p (p.placeFrom w.here) := by
    rw [inTurn_crowd hclock]
    exact finds_after hw hquiet' order
  have hprogress := hrun.progress rfl hbody hlockless
    (fun _ _ hrun' => hrun'.stands_placeFrom hw hcrowd p) hturn
  obtain ⟨past, half⟩ := halfway_of_progress hw hs hclock hquiet' hcalls hbody hprogress
  have honce := hprogress.once
  -- What a call that has ended answered, and that it was not in the middle.
  have hdone (pre : List ι) (i : ι) (post : List ι) (r : Except Failure Answer)
      (horder : takers events = pre ++ i :: post) (hi : c.plan i = .done r) :
      (∃ post', past = pre ++ i :: post') ∧ r = s.calls.reply (s.calls.after w (pre.map step)) (step i) := by
    obtain ⟨post', hpast⟩ := half.split honce horder ⟨r, hi⟩
    have hserved := half.served pre i post' hpast
    rw [hi] at hserved
    exact ⟨⟨post', hpast⟩, Plan.done.inj hserved⟩
  refine ⟨honce, fun pre i post r horder hi => (hdone pre i post r horder hi).2, fun hall => ?_, ?_,
    ?_, ?_⟩
  · have hpast (i : ι) : i ∈ past := by
      by_contra hi
      exact half.others i hi (hall i)
    have heq : past = takers events := by
      obtain ⟨more, hmore⟩ := half.front
      cases more with
      | nil => simpa using hmore
      | cons j more =>
        rw [← hmore] at honce
        exact absurd rfl ((List.nodup_append.mp honce).2.2 j (hpast j) j List.mem_cons_self)
    exact ⟨fun i => heq ▸ hpast i, half.ended heq⟩
  · intro pre i post r name horder hi hreports
    obtain ⟨⟨post', rfl⟩, rfl⟩ := hdone pre i post r horder hi
    obtain ⟨howns, hne, hbytes⟩ :=
      (turns_after hw hs hquiet' hcalls pre i).reports name hreports
    rw [after_here] at hne
    refine half.spares.kept howns hne ?_
    have hkept := backup_kept hw hs hquiet' hcalls (pre ++ [i]) post' howns hne hbytes
    simpa using hkept
  · intro q bytes howns hq hbytes
    have hvouched {content : Bytes} (h : s.Vouched p w step past content) :
        w.tree.bytesAt (p.placeFrom w.here) = some content ∨
          ∃ i r, c.plan i = .done r ∧ Commits (step i).call r content := by
      rcases h with h | ⟨pre, i, post, hpast, hcommits⟩
      · exact .inl h
      · exact .inr ⟨i, _, half.served pre i post hpast, hcommits⟩
    rcases half.spares.bytesAt howns hq hbytes with hbefore | hpart
    · rcases backup_vouched hw hs hquiet' hcalls past howns hq hbefore with h | rfl | h
      · exact .inl h
      · exact .inr ⟨[], List.prefix_rfl, .inl rfl⟩
      · exact .inr ⟨bytes, List.prefix_rfl, .inr (hvouched h)⟩
    · exact .inr ⟨_, hpart, (vouched_held hw hs hquiet' hcalls past).imp_right hvouched⟩
  · intro pre i post r horder hi hback
    obtain ⟨-, rfl⟩ := hdone pre i post r horder hi
    exact (turns_after hw hs hquiet' hcalls pre i).restores hback

/-- Whatever order the calls take the lock in, there is a run in which they do. -/
theorem exists_runs_of_order [DecidableEq ι] (hw : w.Regular)
    (hclock : ∀ i, (step i).clock = w.clock) (hquiet : ∀ i, ((step i).meets w).Quiet)
    (hcalls : ∀ i, (step i).call.WorksOn s p) (honce : order.Nodup) :
    ∃ events c, (s.crowd w step).Runs events c ∧ takers events = order ∧
      ∀ i ∈ order, (c.plan i).Finished := by
  choose body hlockless hbody using fun i => guarded_call (hcalls i)
  have hturn (order : List ι) : ((s.crowd w step).inTurn order).Finds p (p.placeFrom w.here) := by
    rw [inTurn_crowd hclock]
    exact finds_after hw (fun i _ => hquiet i) order
  obtain ⟨events, c, hrun, htakers, -, -, hends, -⟩ :=
    (s.crowd w step).exists_runs_inTurn rfl hbody hlockless hturn honce
  exact ⟨events, c, hrun, htakers, hends⟩

/-- A folder for servers and one for backups, both empty. -/
def unfurnished : World :=
  .atNoon ⟨[(["b"], .folder), (["c"], .folder)]⟩ (.ok .well)

def vacantSite : Site := ⟨⟨.one, ["a"]⟩, ⟨.one, ["b"]⟩, ⟨["c"]⟩, {}⟩

/-- A server file is made and deleted. -/
def createAndDelete (deletes : Bool) : Step :=
  ⟨unfurnished.clock, unfurnished.programs,
    if deletes then .deleteServer (some "x") else .createServer (some "x") (some "y")⟩

/-- The site when the server file is there. -/
def created : World :=
  { unfurnished with
    tree := ⟨[(["b", "x.conf"], .file [121] 0o644 .lately), (["b"], .folder), (["c"], .folder)]⟩ }

theorem reply_created : vacantSite.calls.reply created (createAndDelete true)
    = .ok (.deleted (some "x.conf.20240501_120000.backup")) := by cbv

/-- When the server file is made before it is deleted, the backup holds what was in it. -/
theorem calls_serialise_createAndDelete : ∃ events c,
    (vacantSite.crowd unfurnished createAndDelete).Runs events c ∧ takers events = [false, true] ∧
      c.plan true = .done (.ok (.deleted (some "x.conf.20240501_120000.backup"))) ∧
      c.world.tree.bytesAt ["c", "x.conf.20240501_120000.backup"] = some [121] := by
  have hregular : unfurnished.Regular :=
    ⟨⟨Tree.sound_of_entries (by decide), rfl⟩, Tree.linkless_of_entries (by simp [unfurnished])⟩
  have hcalls (i : Bool) :
      (createAndDelete i).call.WorksOn vacantSite ⟨.one, ["b", "x.conf"]⟩ := by
    cases i <;> rfl
  obtain ⟨events, c, hrun, htakers, hends⟩ := exists_runs_of_order hregular
    (fun _ => rfl) (fun _ _ _ _ => rfl) hcalls (show [false, true].Nodup by decide)
  have hserial := calls_serialise hregular (by decide) (fun _ => rfl)
    (fun _ _ _ _ => rfl) hcalls hrun
  rw [htakers] at hserial
  have hafter : vacantSite.calls.after unfurnished ([false].map createAndDelete) = created := by cbv
  have hheld : created.held ⟨.one, ["b", "x.conf"]⟩ = some [121] := by cbv
  obtain ⟨r, hr⟩ := hends true (by decide)
  have hanswer := hserial.answers [false] true [] r rfl hr
  rw [hafter, reply_created] at hanswer
  subst hanswer
  have hreported := hserial.reported [false] true [] _ _ rfl hr ⟨_, rfl, rfl⟩
  rw [hafter, hheld] at hreported
  exact ⟨events, c, hrun, htakers, hr, hreported⟩

end

end Site
end ConfigSteward
