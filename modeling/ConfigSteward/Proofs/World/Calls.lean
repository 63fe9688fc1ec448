import ConfigSteward.Proofs.World.Lands
import ConfigSteward.Proofs.World.Passing

/-!
# The file calls of a task, one rule each

Every rule turns a statement about a call into one about the world it is made in, so that a task is
opened by rewriting with the rules of its calls.
-/
namespace ConfigSteward

open Plan

variable {α β : Type} {I : World → Prop} {w : World} {p : Path}

namespace FileTask

theorem does_read {Q : Except Fault Bytes → World → List Execution → Prop} :
    (read p).run.Does I w Q ↔ I w ∧ Q (w.read p) w [] :=
  does_question rfl (fun _ h => h) rfl

theorem does_look {Q : Except Fault Status → World → List Execution → Prop} :
    (look p).run.Does I w Q ↔ I w ∧ Q (w.look p) w [] :=
  does_question rfl (fun _ h => h) rfl

theorem does_list {Q : Except Fault (List String) → World → List Execution → Prop} :
    (list p).run.Does I w Q ↔ I w ∧ Q (w.list p) w [] :=
  does_question rfl (fun _ h => h) rfl

section
variable {Q : Except Fault Unit → World → List Execution → Prop}

theorem does_create :
    (create p).run.Does I w Q ↔ I w ∧ I (w.add p (.file [] World.plainMode .lately)).2 ∧
      Q (w.add p (.file [] World.plainMode .lately)).1
        (w.add p (.file [] World.plainMode .lately)).2 [] :=
  does_change (fun _ h => h) rfl

theorem does_makeFolder :
    (makeFolder p).run.Does I w Q ↔
      I w ∧ I (w.add p .folder).2 ∧ Q (w.add p .folder).1 (w.add p .folder).2 [] :=
  does_change (fun _ h => h) rfl

theorem does_fill {bytes : Bytes} :
    (fill p bytes).run.Does I w Q ↔
      I w ∧ (∀ k, I (w.alter p fun _ mode _ => .file (bytes.take k) mode .lately).2) ∧
        I (w.alter p fun _ mode _ => .file bytes mode .lately).2 ∧
        Q (w.alter p fun _ mode _ => .file bytes mode .lately).1
          (w.alter p fun _ mode _ => .file bytes mode .lately).2 [] := by
  refine does_request.trans (and_congr_right fun _ => and_congr_left fun _ => ?_)
  exact ⟨fun h k => h _ ⟨k, rfl⟩, fun h v ⟨k, hv⟩ => hv ▸ h k⟩

theorem does_setMode {mode : Nat} :
    (setMode p mode).run.Does I w Q ↔
      I w ∧ I (w.alter p fun bytes _ changed => .file bytes mode changed).2 ∧
        Q (w.alter p fun bytes _ changed => .file bytes mode changed).1
          (w.alter p fun bytes _ changed => .file bytes mode changed).2 [] :=
  does_change (fun _ h => h) rfl

theorem does_move {target : Path} :
    (move p target).run.Does I w Q ↔
      I w ∧ I (w.move p target).2 ∧ Q (w.move p target).1 (w.move p target).2 [] :=
  does_change (fun _ h => h) rfl

theorem does_unlink :
    (unlink p).run.Does I w Q ↔ I w ∧ I (w.unlink p).2 ∧ Q (w.unlink p).1 (w.unlink p).2 [] :=
  does_change (fun _ h => h) rfl

end

theorem does_createTemp {base : String} {Q : Except Fault Path → World → List Execution → Prop} :
    (createTemp p base).run.Does I w Q ↔
      I w ∧ I (w.createTemp p base).2 ∧ Q (w.createTemp p base).1 (w.createTemp p base).2 [] :=
  does_change (fun _ h => h) rfl

theorem does_attempt {t : FileTask α}
    {Q : Except Fault (Except Fault α) → World → List Execution → Prop} :
    (attempt t).run.Does I w Q ↔ t.run.Does I w fun r => Q (.ok r) :=
  does_lift

/-- What `leads` answers in a world. -/
def leadsIn (w : World) (p : Path) (test : Status → Bool) : Except Fault Bool :=
  match w.look p with
  | .ok status => .ok (test status)
  | .error f => if f.cause.leadsNowhere then .ok false else .error f

theorem does_leads {test : Status → Bool} {Q : Except Fault Bool → World → List Execution → Prop} :
    (leads p test).run.Does I w Q ↔ I w ∧ Q (leadsIn w p test) w [] := by
  rw [leads, does_andThen, does_attempt, does_look, leadsIn]
  refine and_congr_right fun hw => ?_
  rcases w.look p with f | status
  · by_cases hf : f.cause.leadsNowhere
    · simp [hf, hw]
    · simp [hf, hw]
  · simp [hw]

end FileTask

namespace Task

theorem does_request {r : Request} {Q : Except Failure r.Reply → World → List Execution → Prop} :
    (request r).run.Does I w Q ↔ (Plan.request r).Does I w fun a => Q (.ok a) :=
  does_lift

theorem does_refuse {refusal : Refusal} {Q : Except Failure α → World → List Execution → Prop} :
    (refuse refusal : Task α).run.Does I w Q ↔ I w ∧ Q (.error (.refused refusal)) w [] :=
  does_done

/-- A file task whose fault is made a failure. -/
theorem does_mapError {t : FileTask α} (f : Fault → Failure)
    {Q : Except Failure α → World → List Execution → Prop} :
    (ExceptT.mk do
      match ← t.run with
      | .ok a => return .ok a
      | .error fault => return .error (f fault) : Task α).run.Does I w Q ↔
      t.run.Does I w fun r v es => Q (r.mapError f) v es := by
  rw [ExceptT.run_mk, does_bind]
  constructor
  · intro h
    refine h.imp fun r v es _ hr => ?_
    cases r with
    | ok a => simpa [Except.mapError] using (does_done.mp hr).2
    | error f => simpa [Except.mapError] using (does_done.mp hr).2
  · intro h
    refine h.imp fun r v es hv hr => ?_
    cases r with
    | ok a => exact does_done.mpr ⟨hv, by simpa [Except.mapError] using hr⟩
    | error f => exact does_done.mpr ⟨hv, by simpa [Except.mapError] using hr⟩

theorem does_ofFile {t : FileTask α} {Q : Except Failure α → World → List Execution → Prop} :
    (ofFile t).run.Does I w Q ↔
      t.run.Does I w fun r v es => Q (r.mapError Failure.fault) v es := does_mapError _

theorem does_ofFileOr {t : FileTask α} {refusal : Fault → Refusal}
    {Q : Except Failure α → World → List Execution → Prop} :
    (ofFileOr refusal t).run.Does I w Q ↔
      t.run.Does I w fun r v es => Q (r.mapError fun f => .refused (refusal f)) v es :=
  does_mapError fun f => .refused (refusal f)

theorem does_attemptFile {t : FileTask α}
    {Q : Except Failure (Except Fault α) → World → List Execution → Prop} :
    (attemptFile t).run.Does I w Q ↔ t.run.Does I w fun r => Q (.ok r) :=
  does_lift

theorem does_attempt {t : Task α}
    {Q : Except Failure (Except Failure α) → World → List Execution → Prop} :
    (attempt t).run.Does I w Q ↔ t.run.Does I w fun r => Q (.ok r) :=
  does_lift

end Task
end ConfigSteward
