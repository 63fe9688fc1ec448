import ConfigSteward.Proofs.World.Passing
import ConfigSteward.Lock

/-!
# Kinds of plans

A kind of plans that composing plans does not lead out of has an operation in it as soon as it has
the operation's requests. So an operation is taken apart once for all kinds.
-/
namespace ConfigSteward

/-- The request asks about files and changes nothing. -/
def Request.Asks : Request → Prop
  | read _ | look _ | list _ | resolve _ => True
  | _ => False

/-- The request is about files or runs a program. -/
def Request.Acts : Request → Prop
  | clock | latest _ | note _ _ | acquire _ | release _ => False
  | _ => True

theorem Request.Asks.acts {r : Request} (h : r.Asks) : r.Acts := by
  cases r <;> trivial

namespace Plan

/-- A property of plans. -/
abbrev Kind := (α : Type) → Plan α → Prop

namespace Kind

variable {K : Kind} {ε α β : Type}

structure Composes (K : Kind) : Prop where
  done : ∀ {α : Type} (a : α), K α (.done a)
  bind : ∀ {α β : Type} {p : Plan α} {f : α → Plan β}, K α p → (∀ a, K β (f a)) → K β (p >>= f)

/-- The kind has all that asks about files. -/
structure Asking (K : Kind) : Prop extends Composes K where
  asks : ∀ r : Request, r.Asks → K r.Reply (request r)

/-- The kind has all that files and programs are for. -/
structure Acting (K : Kind) : Prop extends Composes K where
  acts : ∀ r : Request, r.Acts → K r.Reply (request r)

/-- The kind has the taking and giving back of locks. -/
structure Locking (K : Kind) : Prop extends Composes K where
  acquires : ∀ lock, K Unit (request (.acquire lock))
  releases : ∀ lock, K Unit (request (.release lock))

theorem Acting.asking (h : K.Acting) : K.Asking := ⟨h.toComposes, fun r hr => h.acts r hr.acts⟩

namespace Composes

variable (h : K.Composes)
include h

theorem pure (a : α) : K _ (Pure.pure a : ExceptT ε Plan α).run := h.done _

theorem throw (e : ε) : K _ (MonadExcept.throw e : ExceptT ε Plan α).run := h.done _

theorem refuse (refusal : Refusal) : K _ (Task.refuse refusal : Task α).run := h.done _

theorem andThen {t : ExceptT ε Plan α} {f : α → ExceptT ε Plan β} (ht : K _ t.run)
    (hf : ∀ a, K _ (f a).run) : K _ (t >>= f).run := by
  rw [ExceptT.run_bind]
  refine h.bind ht fun r => ?_
  cases r with
  | ok a => exact hf a
  | error e => exact h.done _

theorem lift {p : Plan α} (hp : K _ p) : K _ (ExceptT.lift p : ExceptT ε Plan α).run := by
  rw [ExceptT.run_lift, map_eq_pure_bind]
  exact h.bind hp fun _ => h.done _

theorem ofFile {t : FileTask α} (ht : K _ t.run) : K _ (Task.ofFile t).run :=
  h.bind ht fun r => by cases r <;> exact h.done _

theorem ofFileOr {t : FileTask α} {refusal : Fault → Refusal} (ht : K _ t.run) :
    K _ (Task.ofFileOr refusal t).run :=
  h.bind ht fun r => by cases r <;> exact h.done _

/-! ### Files -/

section
variable {p temp target : Path} {bytes : Bytes}

theorem resolve (hresolve : K _ (request (.resolve p))) : K _ (Task.resolve p).run := by
  refine h.andThen (h.lift hresolve) fun r => ?_
  cases r with
  | ok place => exact h.pure _
  | error place => exact h.throw _

theorem leads (hlook : K _ (request (.look p))) (test : Status → Bool) :
    K _ (FileTask.leads p test).run := by
  refine h.andThen (h.lift hlook) fun r => ?_
  cases r with
  | ok status => exact h.pure _
  | error f =>
    dsimp only
    split
    · exact h.pure _
    · exact h.throw f

theorem orFolder (hlook : K _ (request (.look p))) (f : Fault) :
    K _ (FileTask.orFolder p f).run := by
  refine h.andThen (h.leads hlook _) fun there => ?_
  split
  · exact h.pure _
  · exact h.throw f

theorem modeFor (hlook : K _ (request (.look p))) : K _ (FileTask.modeFor p).run := by
  refine h.andThen (h.leads hlook _) fun there => ?_
  split
  · exact h.andThen hlook fun _ => h.pure _
  · exact h.pure _

theorem fillAndMove (hfill : K _ (request (.fill temp bytes)))
    (hlook : K _ (request (.look target))) (hmode : ∀ mode, K _ (request (.setMode temp mode)))
    (hmove : K _ (request (.move temp target))) :
    K _ (FileTask.fillAndMove temp target bytes).run :=
  h.andThen hfill fun _ => h.andThen (h.modeFor hlook) fun mode =>
    h.andThen (hmode mode) fun _ => hmove

theorem discard (hlook : K _ (request (.look temp))) (hunlink : K _ (request (.unlink temp))) :
    K _ (FileTask.discard temp).run := by
  refine h.andThen (h.lift hlook) fun r => ?_
  cases r with
  | ok _ => exact hunlink
  | error _ => exact h.pure _

theorem createWith (hcreate : K _ (request (.create p))) (hfill : K _ (request (.fill p bytes))) :
    K _ (FileTask.createWith p bytes).run := h.andThen hcreate fun _ => hfill

end
end Composes

section
variable (h : K.Asking)
include h

theorem Asking.resolve (p : Path) : K _ (Task.resolve p).run :=
  h.toComposes.resolve (h.asks (.resolve p) trivial)

theorem Asking.leads (p : Path) (test : Status → Bool) : K _ (FileTask.leads p test).run :=
  h.toComposes.leads (h.asks (.look p) trivial) test

end

namespace Acting

variable (h : K.Acting)
include h

theorem orFolder (p : Path) (f : Fault) : K _ (FileTask.orFolder p f).run :=
  h.toComposes.orFolder (h.acts (.look p) trivial) f

theorem makeOneFolder (p : Path) : K _ (FileTask.makeOneFolder p).run := by
  refine h.andThen (h.lift (h.acts (.makeFolder p) trivial)) fun r => ?_
  cases r with
  | ok _ => exact h.pure _
  | error f =>
    dsimp only
    split
    · exact h.throw f
    · exact h.orFolder p f

theorem ensureFolder (p : Path) : K _ (FileTask.ensureFolder p).run := by
  induction p using FileTask.ensureFolder.induct with
  | case1 p ih =>
    rw [FileTask.ensureFolder]
    refine h.andThen (h.lift (h.acts (.makeFolder p) trivial)) fun r => ?_
    cases r with
    | ok _ => exact h.pure _
    | error f =>
      dsimp only
      split
      · split
        · exact h.throw f
        · next hbare => exact h.andThen (ih hbare) fun _ => h.makeOneFolder p
      · exact h.orFolder p f

theorem fillAndMove (temp target : Path) (bytes : Bytes) :
    K _ (FileTask.fillAndMove temp target bytes).run :=
  h.toComposes.fillAndMove (h.acts (.fill temp bytes) trivial) (h.acts (.look target) trivial)
    (fun mode => h.acts (.setMode temp mode) trivial) (h.acts (.move temp target) trivial)

theorem discard (temp : Path) : K _ (FileTask.discard temp).run :=
  h.toComposes.discard (h.acts (.look temp) trivial) (h.acts (.unlink temp) trivial)

theorem replace (p : Path) (bytes : Bytes) : K _ (FileTask.replace p bytes).run := by
  refine h.andThen (h.ensureFolder p.parent) fun _ =>
    h.andThen (h.acts (.createTemp p.parent p.name) trivial) fun temp => ?_
  refine h.andThen (h.lift (h.fillAndMove temp p bytes)) fun r => ?_
  cases r with
  | ok _ => exact h.pure _
  | error f => exact h.andThen (h.discard temp) fun _ => h.throw f

theorem createWith (p : Path) (bytes : Bytes) : K _ (FileTask.createWith p bytes).run :=
  h.toComposes.createWith (h.acts (.create p) trivial) (h.acts (.fill p bytes) trivial)

end Acting

/-! ### Locks -/

section
variable (h : K.Locking)
include h

theorem Locking.acquireAll (locks : List Place) : K _ (Lock.acquireAll locks) := by
  induction locks with
  | nil => exact h.done _
  | cons lock locks ih => exact h.bind (h.acquires lock) fun _ => ih

theorem Locking.releaseAll (locks : List Place) : K _ (Lock.releaseAll locks) := by
  induction locks with
  | nil => exact h.done _
  | cons lock locks ih => exact h.bind (h.releases lock) fun _ => ih

/-- Holding files asks for nothing but their places. -/
theorem Locking.holding {paths : List Path} {task : Task α}
    (hresolve : ∀ p ∈ paths, K _ (request (.resolve p))) (htask : K _ task.run) :
    K _ (Lock.hold paths task).run := by
  have hplaces : K _ (Lock.places paths).run := by
    induction paths with
    | nil => exact h.pure _
    | cons p paths ih =>
      exact h.andThen (h.resolve (hresolve p List.mem_cons_self)) fun _ =>
        h.andThen (ih fun q hq => hresolve q (List.mem_cons_of_mem p hq)) fun _ => h.pure _
  refine h.andThen hplaces fun _ => h.andThen (h.lift (h.acquireAll _)) fun _ => ?_
  exact h.bind htask fun _ => h.bind (h.releaseAll _) fun _ => h.done _

theorem Locking.hold (hasks : K.Asking) (paths : List Path) {task : Task α} (htask : K _ task.run) :
    K _ (Lock.hold paths task).run :=
  h.holding (fun p _ => hasks.asks (.resolve p) trivial) htask

end
end Kind
end Plan
end ConfigSteward
