import ConfigSteward.Proofs.World.Kinds
import ConfigSteward.Proofs.World.Passing

/-!
# Runs with mishaps

A file call may fail although nothing there speaks against it: the disk is full, or something goes
wrong on it. A `Hazard` says which faults may strike and when, and `Fares` is a request with such a
mishap or without one. `AlwaysIn` says how a plan ends however its calls fare, and what was told of
them: `Leaves` tells the files that were filled, moved to their place or taken away and the programs
that ran, as `Mark`s, and `Braves` the `Execution`s. `Always` is about any fault at any time.
-/
namespace ConfigSteward

/-- A fault that may come at any time, since it does not tell what is there. -/
def Fault.Untimely (f : Fault) : Prop := f.cause ≠ .noEntry ∧ f.cause ≠ .alreadyThere

/-- Something that a run did. -/
inductive Mark where
  | filled (p : Path) (bytes : Bytes)
  | moved (source target : Path)
  | unlinked (p : Path)
  | ran (args : List String) (reply : Except Failure CommandResult)

/-- The mark of a program that was run. -/
def Mark.isRun : Mark → Bool
  | ran .. => true
  | _ => false

namespace Request

/-- The reply of a call on files that fails; the other requests do not fail. -/
def failing? (f : Fault) : (r : Request) → Option r.Reply
  | read _ | look _ | list _ | create _ | createTemp _ _ | fill _ _ | setMode _ _ | move _ _
  | unlink _ | makeFolder _ => some (.error f)
  | _ => none

/-- What a request with its reply did. -/
def marks : (r : Request) → r.Reply → List Mark
  | fill p bytes, .ok () => [.filled p bytes]
  | move source target, .ok () => [.moved source target]
  | unlink p, .ok () => [.unlinked p]
  | run args, reply => [.ran args reply]
  | _, _ => []

end Request

/-- Which faults may strike a request, and in which worlds. None of them tells what is there. -/
structure Hazard where
  strikes : World → Request → Fault → Prop
  untimely : ∀ {w r f}, strikes w r f → f.Untimely

namespace Hazard

/-- Any fault that does not tell what is there, at any time. -/
def any : Hazard := ⟨fun _ _ f => f.Untimely, id⟩

/-- Nothing goes wrong. -/
def none : Hazard := ⟨fun _ _ _ => False, False.elim⟩

variable (hazard : Hazard)

/-- No fault is taken for the answer that a path leads nowhere. -/
def Blatant : Prop := ∀ {w r f}, hazard.strikes w r f → f.cause.leadsNowhere = false

/-- Nothing goes wrong any more once more than `n` programs have run. -/
def CeasesAfter (n : Nat) : Prop := ∀ {w r f}, hazard.strikes w r f → w.ran.length ≤ n

/-- Nothing goes wrong while a temporary file is taken away. -/
def Tidy : Prop := ∀ w folder base n f,
  ¬ hazard.strikes w (.look (Path.child folder (World.tempName base n))) f ∧
    ¬ hazard.strikes w (.unlink (Path.child folder (World.tempName base n))) f

/-- Filling a file can fail, with part of the content in it or none. -/
def Tears : Prop := ∃ w p bytes f, hazard.strikes w (.fill p bytes) f

/-- Any fault that does not tell what is there, nor is taken to, until more than `n` programs have
run. -/
def upTo (n : Nat) : Hazard where
  strikes w _ f := w.ran.length ≤ n ∧ f.cause.leadsNowhere = false ∧ f.cause ≠ .alreadyThere
  untimely h := ⟨fun heq => by simp [heq, Cause.leadsNowhere] at h, h.2.2⟩

theorem blatant_none : none.Blatant := False.elim

theorem blatant_upTo (n : Nat) : (upTo n).Blatant := fun h => h.2.1

theorem ceases_upTo (n : Nat) : (upTo n).CeasesAfter n := fun h => h.1

end Hazard

/-- What may come of a request: the usual, or a fault that leaves everything as it was or, while a
file is filled, the first part of the content in it. -/
inductive World.Fares (hazard : Hazard) (w : World) (r : Request) : r.Reply → World → Prop where
  | well : Fares hazard w r (w.perform r).1 (w.perform r).2
  | ill {f : Fault} {reply : r.Reply} (strikes : hazard.strikes w r f)
      (fails : r.failing? f = some reply) : Fares hazard w r reply w
  | torn {f : Fault} {reply : r.Reply} {v : World} (strikes : hazard.strikes w r f)
      (fails : r.failing? f = some reply) (torn : w.Torn r v) : Fares hazard w r reply v

namespace Plan

variable {α β ω : Type} {hazard : Hazard} {told : World → (r : Request) → r.Reply → List ω}
  {w : World} {Q R : α → World → List ω → Prop}

/-- However its calls fare, the plan ends as `Q` says of its result, of the world that it leaves and
of what is told of its requests. -/
def AlwaysIn (hazard : Hazard) (told : World → (r : Request) → r.Reply → List ω) :
    Plan α → World → (α → World → List ω → Prop) → Prop
  | done a, w, Q => Q a w []
  | ask r next, w, Q =>
    ∀ reply v, w.Fares hazard r reply v →
      (next reply).AlwaysIn hazard told v fun a u tail => Q a u (told w r reply ++ tail)

/-- The end of a plan and what it did. -/
abbrev Leaves (hazard : Hazard) (p : Plan α) (w : World) (Q : α → World → List Mark → Prop) :
    Prop := p.AlwaysIn hazard (fun _ => Request.marks) w Q

/-- The end of a plan and the programs that it ran. -/
abbrev Braves (hazard : Hazard) (p : Plan α) (w : World)
    (Q : α → World → List Execution → Prop) : Prop :=
  p.AlwaysIn hazard (fun w r _ => w.executed r) w Q

/-- The end of a plan, whatever goes wrong, and what it did. -/
abbrev Always (p : Plan α) (w : World) (Q : α → World → List Mark → Prop) : Prop :=
  p.Leaves .any w Q

/-- What a plan did in a run without mishaps. -/
def marks : Plan α → World → List Mark
  | done _, _ => []
  | ask r next, w => r.marks (w.perform r).1 ++ (next (w.perform r).1).marks (w.perform r).2

theorem AlwaysIn.mono {p : Plan α} (h : p.AlwaysIn hazard told w Q)
    (hQ : ∀ a v tail, Q a v tail → R a v tail) : p.AlwaysIn hazard told w R := by
  induction p generalizing w Q R with
  | done a => exact hQ _ _ _ h
  | ask r next ih =>
    intro reply v hfares
    exact ih reply (h reply v hfares) fun a u tail => hQ a u _

/-- The run without mishaps is one of the runs. -/
theorem Leaves.run {p : Plan α} {Q : α → World → List Mark → Prop} (h : p.Leaves hazard w Q) :
    Q (p.run w).1 (p.run w).2 (p.marks w) := by
  induction p generalizing w Q with
  | done a => exact h
  | ask r next ih => exact ih _ (h _ _ .well)

/-- The run without mishaps is one of the runs. -/
theorem Braves.run {p : Plan α} {Q : α → World → List Execution → Prop}
    (h : p.Braves hazard w Q) : Q (p.run w).1 (p.run w).2 (p.executions w) := by
  induction p generalizing w Q with
  | done a => exact h
  | ask r next ih => exact ih _ (h _ _ .well)

@[simp] theorem always_done {a : α} : (done a).AlwaysIn hazard told w Q ↔ Q a w [] := .rfl

theorem always_bind {Q : β → World → List ω → Prop} {p : Plan α} {f : α → Plan β} :
    (p >>= f).AlwaysIn hazard told w Q ↔ p.AlwaysIn hazard told w fun a v tail =>
      (f a).AlwaysIn hazard told v fun b u tail' => Q b u (tail ++ tail') := by
  induction p generalizing w Q with
  | done a => rfl
  | ask r next ih =>
    rw [ask_bind, AlwaysIn, AlwaysIn]
    refine forall_congr' fun reply => forall_congr' fun v => imp_congr_right fun _ => ?_
    simp only [ih, List.append_assoc]

theorem always_request {r : Request} {Q : r.Reply → World → List ω → Prop} :
    (request r).AlwaysIn hazard told w Q ↔
      ∀ reply v, w.Fares hazard r reply v → Q reply v (told w r reply) := by
  simp only [request, AlwaysIn, List.append_nil]

/-- A file call that cannot be torn. -/
theorem always_call {r : Request} {Q : r.Reply → World → List Mark → Prop} (fail : Fault → r.Reply)
    (hfail : ∀ f, r.failing? f = some (fail f)) (hmarks : ∀ f, r.marks (fail f) = [])
    (htorn : ∀ v, ¬ w.Torn r v) :
    (request r).Leaves hazard w Q ↔ Q (w.perform r).1 (w.perform r).2 (r.marks (w.perform r).1) ∧
      ∀ f, hazard.strikes w r f → Q (fail f) w [] := by
  refine always_request.trans ⟨?_, ?_⟩
  · intro h
    exact ⟨h _ _ .well, fun f hf => hmarks f ▸ h _ _ (.ill hf (hfail f))⟩
  · rintro ⟨hwell, hill⟩ reply v (_ | ⟨hf, hreply⟩ | ⟨-, -, hv⟩)
    · exact hwell
    · obtain rfl := Option.some.inj ((hfail _).symm.trans hreply)
      exact hmarks _ ▸ hill _ hf
    · exact absurd hv (htorn v)

/-- A request that does not fail. -/
theorem always_sure {r : Request} {Q : r.Reply → World → List ω → Prop}
    (hsure : ∀ f, r.failing? f = none) :
    (request r).AlwaysIn hazard told w Q ↔
      Q (w.perform r).1 (w.perform r).2 (told w r (w.perform r).1) := by
  rw [always_request]
  constructor
  · intro h
    exact h _ _ .well
  · rintro h reply v (_ | ⟨-, hreply⟩ | ⟨-, hreply, -⟩)
    · exact h
    · cases (hsure _).symm.trans hreply
    · cases (hsure _).symm.trans hreply

/-! ### Plans that may fail -/

section
variable {ε : Type} {Q : Except ε β → World → List ω → Prop}

@[simp] theorem always_pure {b : β} :
    (pure b : ExceptT ε Plan β).run.AlwaysIn hazard told w Q ↔ Q (.ok b) w [] := .rfl

theorem always_andThen {t : ExceptT ε Plan α} {f : α → ExceptT ε Plan β} :
    (t >>= f).run.AlwaysIn hazard told w Q ↔ t.run.AlwaysIn hazard told w fun r v tail =>
      match r with
      | .ok a => (f a).run.AlwaysIn hazard told v fun b u tail' => Q b u (tail ++ tail')
      | .error e => Q (.error e) v tail := by
  rw [ExceptT.run_bind, always_bind]
  constructor
  · refine fun h => h.mono fun r v tail hr => ?_
    cases r with
    | ok a => exact hr
    | error e => simpa using hr
  · refine fun h => h.mono fun r v tail hr => ?_
    cases r with
    | ok a => exact hr
    | error e => simpa using hr

theorem always_lift {p : Plan β} :
    (ExceptT.lift p : ExceptT ε Plan β).run.AlwaysIn hazard told w Q ↔
      p.AlwaysIn hazard told w fun b => Q (.ok b) := by
  rw [ExceptT.run_lift, map_eq_pure_bind, always_bind]
  constructor
  · exact fun h => h.mono fun b v tail hb => by simpa using hb
  · exact fun h => h.mono fun b v tail hb => by simpa using hb

end

end Plan

open Plan

variable {α ω : Type} {hazard : Hazard} {told : World → (r : Request) → r.Reply → List ω} {w : World}
  {p : Path}

/-! ### The calls of a task -/

namespace FileTask

theorem always_read {Q : Except Fault Bytes → World → List Mark → Prop} :
    (read p).run.Leaves hazard w Q ↔
      Q (w.read p) w [] ∧ ∀ f, hazard.strikes w (.read p) f → Q (.error f) w [] :=
  always_call (r := .read p) .error (fun _ => rfl) (fun _ => rfl) fun _ h => h

theorem always_look {Q : Except Fault Status → World → List Mark → Prop} :
    (look p).run.Leaves hazard w Q ↔
      Q (w.look p) w [] ∧ ∀ f, hazard.strikes w (.look p) f → Q (.error f) w [] :=
  always_call (r := .look p) .error (fun _ => rfl) (fun _ => rfl) fun _ h => h

theorem always_list {Q : Except Fault (List String) → World → List Mark → Prop} :
    (list p).run.Leaves hazard w Q ↔
      Q (w.list p) w [] ∧ ∀ f, hazard.strikes w (.list p) f → Q (.error f) w [] :=
  always_call (r := .list p) .error (fun _ => rfl) (fun _ => rfl) fun _ h => h

theorem always_createTemp {base : String} {Q : Except Fault Path → World → List Mark → Prop} :
    (createTemp p base).run.Leaves hazard w Q ↔
      Q (w.createTemp p base).1 (w.createTemp p base).2 [] ∧
        ∀ f, hazard.strikes w (.createTemp p base) f → Q (.error f) w [] :=
  always_call (r := .createTemp p base) .error (fun _ => rfl) (fun _ => rfl) fun _ h => h

section
variable {Q : Except Fault Unit → World → List Mark → Prop}

theorem always_create :
    (create p).run.Leaves hazard w Q ↔
      Q (w.add p (.file [] World.plainMode .lately)).1
        (w.add p (.file [] World.plainMode .lately)).2 [] ∧
        ∀ f, hazard.strikes w (.create p) f → Q (.error f) w [] :=
  always_call (r := .create p) .error (fun _ => rfl) (fun _ => rfl) fun _ h => h

theorem always_makeFolder :
    (makeFolder p).run.Leaves hazard w Q ↔
      Q (w.add p .folder).1 (w.add p .folder).2 [] ∧
        ∀ f, hazard.strikes w (.makeFolder p) f → Q (.error f) w [] :=
  always_call (r := .makeFolder p) .error (fun _ => rfl) (fun _ => rfl) fun _ h => h

theorem always_setMode {mode : Nat} :
    (setMode p mode).run.Leaves hazard w Q ↔
      Q (w.alter p fun bytes _ changed => .file bytes mode changed).1
        (w.alter p fun bytes _ changed => .file bytes mode changed).2 [] ∧
        ∀ f, hazard.strikes w (.setMode p mode) f → Q (.error f) w [] :=
  always_call (r := .setMode p mode) .error (fun _ => rfl) (fun _ => rfl) fun _ h => h

theorem always_move {target : Path} :
    (move p target).run.Leaves hazard w Q ↔
      Q (w.move p target).1 (w.move p target).2 ((Request.move p target).marks (w.move p target).1) ∧
        ∀ f, hazard.strikes w (.move p target) f → Q (.error f) w [] :=
  always_call (r := .move p target) .error (fun _ => rfl) (fun _ => rfl) fun _ h => h

theorem always_unlink :
    (unlink p).run.Leaves hazard w Q ↔
      Q (w.unlink p).1 (w.unlink p).2 ((Request.unlink p).marks (w.unlink p).1) ∧
        ∀ f, hazard.strikes w (.unlink p) f → Q (.error f) w [] :=
  always_call (r := .unlink p) .error (fun _ => rfl) (fun _ => rfl) fun _ h => h

/-- Filling a file is the one call that can be torn. -/
theorem always_fill {bytes : Bytes} :
    (fill p bytes).run.Leaves hazard w Q ↔
      Q (w.alter p fun _ mode _ => .file bytes mode .lately).1
        (w.alter p fun _ mode _ => .file bytes mode .lately).2
        ((Request.fill p bytes).marks (w.alter p fun _ mode _ => .file bytes mode .lately).1) ∧
      ∀ f, hazard.strikes w (.fill p bytes) f → Q (.error f) w [] ∧
        ∀ k, Q (.error f) (w.alter p fun _ mode _ => .file (bytes.take k) mode .lately).2 [] := by
  refine (always_request (r := .fill p bytes)).trans ⟨fun h => ⟨h _ _ .well, fun f hf => ?_⟩, ?_⟩
  · exact ⟨h _ _ (.ill hf rfl), fun k => h _ _ (.torn hf rfl ⟨k, rfl⟩)⟩
  · rintro ⟨hwell, hill⟩ reply v (_ | ⟨hf, ⟨⟩⟩ | ⟨hf, ⟨⟩, k, rfl⟩)
    · exact hwell
    · exact (hill _ hf).1
    · exact (hill _ hf).2 k

end

theorem always_attempt {t : FileTask α}
    {Q : Except Fault (Except Fault α) → World → List ω → Prop} :
    (attempt t).run.AlwaysIn hazard told w Q ↔
      t.run.AlwaysIn hazard told w fun r => Q (.ok r) := always_lift

end FileTask

namespace Task

theorem always_attempt {t : Task α}
    {Q : Except Failure (Except Failure α) → World → List ω → Prop} :
    (attempt t).run.AlwaysIn hazard told w Q ↔
      t.run.AlwaysIn hazard told w fun r => Q (.ok r) := always_lift

theorem always_attemptFile {t : FileTask α}
    {Q : Except Failure (Except Fault α) → World → List ω → Prop} :
    (attemptFile t).run.AlwaysIn hazard told w Q ↔
      t.run.AlwaysIn hazard told w fun r => Q (.ok r) := always_lift

/-- A file task whose fault is made a failure. -/
theorem always_mapError {t : FileTask α} (g : Fault → Failure)
    {Q : Except Failure α → World → List ω → Prop} :
    (ExceptT.mk do
      match ← t.run with
      | .ok a => return .ok a
      | .error f => return .error (g f) : Task α).run.AlwaysIn hazard told w Q ↔
      t.run.AlwaysIn hazard told w fun r => Q (r.mapError g) := by
  rw [ExceptT.run_mk, always_bind]
  constructor
  · refine fun h => h.mono fun r v tail hr => ?_
    rw [← tail.append_nil]
    cases r with
    | ok a => exact always_done.mp hr
    | error f => exact always_done.mp hr
  · refine fun h => h.mono fun r v tail hr => ?_
    rw [← tail.append_nil] at hr
    cases r with
    | ok a => exact always_done.mpr hr
    | error f => exact always_done.mpr hr

theorem always_ofFile {t : FileTask α} {Q : Except Failure α → World → List ω → Prop} :
    (ofFile t).run.AlwaysIn hazard told w Q ↔
      t.run.AlwaysIn hazard told w fun r => Q (r.mapError Failure.fault) := always_mapError _

theorem always_ofFileOr {t : FileTask α} {refusal : Fault → Refusal}
    {Q : Except Failure α → World → List ω → Prop} :
    (ofFileOr refusal t).run.AlwaysIn hazard told w Q ↔
      t.run.AlwaysIn hazard told w fun r => Q (r.mapError fun f => .refused (refusal f)) :=
  always_mapError fun f => .refused (refusal f)

/-- A request that does not fail. -/
theorem always_sure {r : Request} {Q : Except Failure r.Reply → World → List ω → Prop}
    (hsure : ∀ f, r.failing? f = none) :
    (request r).run.AlwaysIn hazard told w Q ↔
      Q (.ok (w.perform r).1) (w.perform r).2 (told w r (w.perform r).1) :=
  always_lift.trans (Plan.always_sure hsure)

theorem always_then {task : Task α} {after : Plan Unit}
    {Q : Except Failure α → World → List ω → Prop} :
    (task.andThen after).run.AlwaysIn hazard told w Q ↔
      task.run.AlwaysIn hazard told w fun r v tail => after.AlwaysIn hazard told v fun _ u tail' =>
        Q r u (tail ++ tail') := by
  rw [andThen, ExceptT.run_mk, always_bind]
  constructor
  · refine fun h => h.mono fun r v marks hr => (always_bind.mp hr).mono fun _ u marks' hu => ?_
    simpa using hu
  · refine fun h => h.mono fun r v marks hr => always_bind.mpr (hr.mono fun _ u marks' hu => ?_)
    simpa using hu

end Task

namespace Plan

/-- The plan only asks and takes locks: it leaves the world as it is and does nothing. -/
def Idle (p : Plan α) : Prop := ∀ (hazard : Hazard) w, p.Leaves hazard w fun _ v marks =>
  v = w ∧ marks = []

theorem Idle.composes : Kind.Composes fun _ p => p.Idle where
  done _ _ _ := ⟨rfl, rfl⟩
  bind h hf hazard w := by
    refine always_bind.mpr ((h hazard w).mono ?_)
    rintro a v marks ⟨rfl, rfl⟩
    exact hf a hazard v

theorem Idle.asking : Kind.Asking fun _ p => p.Idle where
  toComposes := Idle.composes
  asks r hr hazard w := by
    refine always_request.mpr fun reply v hfares => ?_
    cases r with
    | read | look | list | resolve =>
      cases hfares with
      | well => exact ⟨rfl, rfl⟩
      | ill => exact ⟨rfl, rfl⟩
      | torn _ _ htorn => exact htorn.elim
    | _ => exact hr.elim

theorem Idle.locking : Kind.Locking fun _ p => p.Idle where
  toComposes := Idle.composes
  acquires lock _ _ := (always_sure (r := .acquire lock) fun _ => rfl).mpr ⟨rfl, rfl⟩
  releases lock _ _ := (always_sure (r := .release lock) fun _ => rfl).mpr ⟨rfl, rfl⟩

end Plan

namespace Lock

private theorem idle_places (paths : List Path) : (places paths).run.Idle := by
  induction paths with
  | nil => exact Idle.composes.pure _
  | cons p paths ih =>
    exact Idle.composes.andThen (Idle.asking.resolve p) fun _ =>
      Idle.composes.andThen ih fun _ => Idle.composes.pure _

/-- Locks change nothing about how a task ends, unless they cannot be taken. -/
theorem always_hold {task : Task α} {Q : Except Failure α → World → List Mark → Prop}
    (paths : List Path) (hfail : ∀ failure, Q (.error failure) w [])
    (h : task.run.Leaves hazard w Q) : (hold paths task).run.Leaves hazard w Q := by
  rw [hold]
  refine always_andThen.mpr ((idle_places paths hazard w).mono ?_)
  rintro (failure | ps) v marks ⟨rfl, rfl⟩
  · exact hfail failure
  refine always_andThen.mpr (always_lift.mpr ((Idle.locking.acquireAll _ hazard v).mono ?_))
  rintro _ v marks ⟨rfl, rfl⟩
  refine Task.always_then.mpr (h.mono fun r v marks hr =>
    (Idle.locking.releaseAll _ hazard v).mono ?_)
  rintro _ u marks' ⟨rfl, rfl⟩
  simpa using hr

end Lock
end ConfigSteward
