import ConfigSteward.Proofs.World.Endings
import ConfigSteward.Proofs.World.Hindered
import ConfigSteward.Proofs.World.Still

/-!
# Tasks that falter

A task that only asks until its last call has two kinds of ends amid mishaps: it ends as it does
without, or a call that was struck ends it before anything was changed.
-/
namespace ConfigSteward

open Plan

/-- The request is for what a file or a folder holds, or it makes, moves or takes away a file. -/
def Request.Accesses : Request → Prop
  | .read _ | .list _ | .create _ | .move _ _ | .unlink _ => True
  | _ => False

/-- The failure of a call that a mishap ended: a fault where the question whether there is a file was
struck, or a refusal where an access was. -/
inductive Stumbles (hazard : Hazard) : Failure → Prop where
  | untold {w : World} {p : Path} {f : Fault} (strikes : hazard.strikes w (.look p) f) :
      Stumbles hazard (.fault f)
  | barred {w : World} {r : Request} {f : Fault} {message : String} (accesses : r.Accesses)
      (strikes : hazard.strikes w r f) : Stumbles hazard (.refused (.fileAccess message))

theorem not_stumbles_none {failure : Failure} : ¬ Stumbles .none failure := by
  rintro (strikes | ⟨-, strikes⟩)
  · exact strikes
  · exact strikes

namespace Plan

variable {α β ε : Type} {hazard : Hazard} {E : ε → Prop} {t : ExceptT ε Plan α}
  {f : α → ExceptT ε Plan β} {w : World}

private theorem run_andThen_ok {a : α} {v : World} (h : t.run.run w = (.ok a, v)) :
    (t >>= f).run.run w = (f a).run.run v := by
  rw [ExceptT.run_bind, run_bind, h]

private theorem run_andThen_error {e : ε} {v : World} (h : t.run.run w = (.error e, v)) :
    (t >>= f).run.run w = (.error e, v) := by
  rw [ExceptT.run_bind, run_bind, h]
  rfl

/-- Amid mishaps the task ends as it does without, or with one of these errors and with all as it
was. -/
def Falters (hazard : Hazard) (E : ε → Prop) (t : ExceptT ε Plan α) : Prop :=
  ∀ w r v, t.run.MayEnd hazard w r v → (r, v) = t.run.run w ∨ ∃ e, E e ∧ r = .error e ∧ v = w

namespace Falters

theorem pure (a : α) : Falters hazard E (pure a : ExceptT ε Plan α) :=
  fun _ _ _ ⟨hr, hv⟩ => .inl (Prod.ext hr hv)

theorem throw (e : ε) : Falters hazard E (throw e : ExceptT ε Plan α) :=
  fun _ _ _ ⟨hr, hv⟩ => .inl (Prod.ext hr hv)

/-- What changes nothing may come before what falters. -/
theorem andThen (h : Falters hazard E t) (hstill : t.run.Still)
    (hf : ∀ a, Falters hazard E (f a)) : Falters hazard E (t >>= f) := by
  intro w r v hend
  rcases mayEnd_andThen.mp hend with ⟨e, ht, rfl⟩ | ⟨a, u, ht, hrest⟩
  · obtain hrun | ⟨e', he', heq, rfl⟩ := h w _ v ht
    · exact .inl (run_andThen_error hrun.symm).symm
    · cases heq
      exact .inr ⟨e, he', rfl, rfl⟩
  · obtain hrun | ⟨-, -, ⟨⟩, -⟩ := h w _ u ht
    obtain rfl : u = w := (congrArg Prod.snd hrun).trans (hstill w)
    rw [run_andThen_ok hrun.symm]
    exact hf a u r v hrest

/-- The result may be put in other words. -/
theorem map (h : Falters hazard E t) (g : α → β) :
    Falters hazard E (t >>= fun a => Pure.pure (g a)) := by
  intro w r v hend
  rcases mayEnd_andThen.mp hend with ⟨e, ht, rfl⟩ | ⟨a, u, ht, rfl, rfl⟩
  · obtain hrun | ⟨e', he', heq, rfl⟩ := h w _ v ht
    · exact .inl (run_andThen_error hrun.symm).symm
    · cases heq
      exact .inr ⟨e, he', rfl, rfl⟩
  · obtain hrun | ⟨-, -, ⟨⟩, -⟩ := h w _ v ht
    refine .inl ?_
    rw [run_andThen_ok hrun.symm]
    rfl

/-- A file task whose fault is made a failure. -/
theorem mapError {P : Fault → Prop} {E : Failure → Prop} {t : FileTask α} {g : Fault → Failure}
    (h : Falters hazard P t) (hE : ∀ f, P f → E (g f)) : Falters hazard E
      (ExceptT.mk do
        match ← t.run with
        | .ok a => return .ok a
        | .error f => return .error (g f) : Task α) := by
  intro w r v hend
  obtain ⟨result, u, ht, hr⟩ := mayEnd_bind.mp hend
  obtain hrun | ⟨f, hf, rfl, rfl⟩ := h w result u ht
  · refine .inl ?_
    rw [ExceptT.run_mk, run_bind, ← hrun]
    cases result with
    | ok a => exact Prod.ext hr.1 hr.2
    | error f => exact Prod.ext hr.1 hr.2
  · exact .inr ⟨g f, hE f hf, hr.1, hr.2⟩

/-- A file task whose result is settled without any more requests. -/
theorem settled {P : Fault → Prop} {E : Failure → Prop} {t : FileTask α}
    {k : Except Fault α → Task β} (h : Falters hazard P t)
    (hk : ∀ result, ∃ r, (k result).run = .done r)
    (hE : ∀ f, P f → ∃ failure, E failure ∧ (k (.error f)).run = .done (.error failure)) :
    Falters hazard E (Task.attemptFile t >>= k) := by
  intro w r v hend
  rcases mayEnd_andThen.mp hend with ⟨e, ht, -⟩ | ⟨result, u, ht, hrest⟩
  · obtain ⟨-, -, ⟨⟩⟩ := Task.mayEnd_attemptFile.mp ht
  · obtain ⟨_, ht, ⟨⟩⟩ := Task.mayEnd_attemptFile.mp ht
    obtain ⟨r', hr'⟩ := hk result
    rw [hr'] at hrest
    obtain ⟨rfl, rfl⟩ := hrest
    obtain hrun | ⟨f, hf, rfl, rfl⟩ := h w result v ht
    · refine .inl ?_
      have hattempt : (Task.attemptFile t).run.run w = (.ok result, v) := by
        rw [Task.attemptFile, ExceptT.run_lift, map_eq_pure_bind, run_bind, ← hrun]
        rfl
      rw [run_andThen_ok hattempt, hr']
      rfl
    · obtain ⟨failure, hfailure, hrun⟩ := hE f hf
      cases hr'.symm.trans hrun
      exact .inr ⟨failure, hfailure, rfl, rfl⟩

end Falters

/-- A request that cannot be torn is answered as it is without mishaps, or it fails. -/
theorem mayEnd_call {r : Request} {reply : r.Reply} {v : World} (fail : Fault → r.Reply)
    (hfail : ∀ f, r.failing? f = some (fail f)) (htorn : ∀ u, ¬ w.Torn r u)
    (h : (request r).MayEnd hazard w reply v) :
    (reply, v) = (request r).run w ∨ ∃ f, (∃ u, hazard.strikes u r f) ∧ reply = fail f ∧ v = w := by
  cases mayEnd_request.mp h with
  | well => exact .inl rfl
  | ill strikes fails =>
    exact .inr ⟨_, ⟨w, strikes⟩, Option.some.inj (fails.symm.trans (hfail _)), rfl⟩
  | torn _ _ torn => exact absurd torn (htorn v)

end Plan

variable {hazard : Hazard} (p : Path)

namespace FileTask

theorem falters_read : Falters hazard (fun f => ∃ u, hazard.strikes u (.read p) f) (read p) :=
  fun _ _ _ => mayEnd_call (r := .read p) .error (fun _ => rfl) fun _ h => h

theorem falters_look : Falters hazard (fun f => ∃ u, hazard.strikes u (.look p) f) (look p) :=
  fun _ _ _ => mayEnd_call (r := .look p) .error (fun _ => rfl) fun _ h => h

theorem falters_list : Falters hazard (fun f => ∃ u, hazard.strikes u (.list p) f) (list p) :=
  fun _ _ _ => mayEnd_call (r := .list p) .error (fun _ => rfl) fun _ h => h

theorem falters_unlink : Falters hazard (fun f => ∃ u, hazard.strikes u (.unlink p) f) (unlink p) :=
  fun _ _ _ => mayEnd_call (r := .unlink p) .error (fun _ => rfl) fun _ h => h

theorem falters_leads (hblatant : hazard.Blatant) (test : Status → Bool) :
    Falters hazard (fun f => ∃ u, hazard.strikes u (.look p) f) (leads p test) := by
  intro w
  refine always_iff.mp (always_leads.mpr ⟨.inl ?_, fun f hf => .inr ⟨f, ⟨w, hf⟩, ?_, rfl⟩⟩)
  · have hdoes : (leads p test).run.Does (fun _ => True) w fun r v _ => (r, v) = (leadsIn w p test, w) :=
      does_leads.mpr ⟨trivial, rfl⟩
    exact hdoes.ends.symm
  · rw [hblatant hf]
    rfl

end FileTask

theorem Task.falters_refuse {α : Type} {E : Failure → Prop} (refusal : Refusal) :
    Falters hazard E (Task.refuse refusal : Task α) := .throw _

theorem Task.falters_resolve {E : Failure → Prop} :
    Falters hazard E (Task.resolve p) := by
  intro w r v hend
  obtain ⟨rfl, rfl⟩ := (Task.mayEnd_resolve w p r v).mp hend
  have hrun : (Task.resolve p).run.MayEnd hazard v _ _ := mayEnd_run (Task.resolve p).run v
  obtain ⟨hr, hv⟩ := (Task.mayEnd_resolve v p _ _).mp hrun
  exact .inl (Prod.ext hr.symm hv.symm)

end ConfigSteward
