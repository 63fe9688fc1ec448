import ConfigSteward.Proofs.Apart.Scope

/-!
# Plans within a scope

A plan is within a scope if it comes to the same end in worlds that differ in the others' places
alone and changes nothing but its own. Plans within a scope compose, so that the plan of an operation
is within it as soon as its requests are.
-/
namespace ConfigSteward

open Plan

variable {α β ε : Type} {σ : Scope}

namespace Plan

/-- In worlds that the work cannot tell apart the plan comes to the same end. -/
def Within (σ : Scope) (p : Plan α) : Prop :=
  ∀ w v, σ.Agrees w v → σ.Follows w (p.run w) (p.run v)

namespace Within

theorem done (a : α) : (done a).Within σ := fun w _ h => ⟨rfl, h, .refl w⟩

/-- What comes after a plan may rely on what the plan can come to. -/
theorem bind {p : Plan α} {f : α → Plan β} (hp : p.Within σ)
    (hf : ∀ w, σ.start.Becomes w → (f (p.run w).1).Within σ) : (p >>= f).Within σ := by
  intro w v h
  obtain ⟨hsame, hagrees, hkeeps⟩ := hp w v h
  rw [run_bind, run_bind, hsame]
  obtain ⟨hsame', hagrees', hkeeps'⟩ := hf w h.left _ _ hagrees
  exact ⟨hsame', hagrees', hkeeps.trans hkeeps'⟩

theorem request {r : Request} (hr : σ.Allows r) : (Plan.request r).Within σ :=
  fun _ _ h => h.perform hr

/-- A plan that comes to one result and leaves the world as it is. -/
theorem of_still {p : Plan α} {a : α} (hp : ∀ w, σ.start.Becomes w → p.run w = (a, w)) :
    p.Within σ := by
  intro w v h
  rw [hp w h.left, hp v h.right]
  exact ⟨rfl, h, .refl w⟩

theorem composes : Kind.Composes fun _ p => p.Within σ := ⟨done, fun hp hf => hp.bind fun _ _ => hf _⟩

theorem locking : Kind.Locking fun _ p => p.Within σ :=
  ⟨composes, fun _ => request trivial, fun _ => request trivial⟩

/-- What comes after a task may rely on what the task can give. -/
theorem andThen {t : ExceptT ε Plan α} {f : α → ExceptT ε Plan β} (ht : t.run.Within σ)
    (hf : ∀ w a, σ.start.Becomes w → (t.run.run w).1 = .ok a → (f a).run.Within σ) :
    (t >>= f).run.Within σ := by
  rw [ExceptT.run_bind]
  refine ht.bind fun w hw => ?_
  rcases hr : (t.run.run w).1 with e | a
  · exact done _
  · exact hf w a hw hr

end Within
end Plan

/-! ### Files -/

section
variable {p : Path}

/-- The request to look at what a clear path leads to. -/
theorem Scope.Clear.look (hp : σ.Clear p) : (request (.look p)).Within σ := .request hp

theorem Scope.Clear.read (hp : σ.Clear p) : (request (.read p)).Within σ := .request hp

theorem Scope.Grants.unlink (hp : σ.Grants p) : (request (.unlink p)).Within σ := .request hp

namespace FileTask

theorem within_leads (hp : σ.Clear p) (test : Status → Bool) : (leads p test).run.Within σ :=
  Within.composes.leads hp.look test

theorem within_createWith (hp : σ.Grants p) (bytes : Bytes) : (createWith p bytes).run.Within σ :=
  Within.composes.createWith (.request hp) (.request hp)

/-- A temporary file comes up under one of the names that are tried. -/
theorem createTemp_spec {w : World} {folder temp : Path} {base : String} (hw : σ.start.Becomes w)
    (h : (w.createTemp folder base).1 = .ok temp) :
    ∃ n, temp = (σ.start.tempFolder folder).child (World.tempName base n) := by
  rcases World.createTemp_cases hw.settled.regular.sound folder base with
    ⟨n, r, temp', rfl, -, -, hcreate⟩ | ⟨f, hcreate⟩
  · rw [hcreate] at h
    exact ⟨n, by rw [← Except.ok.inj h, hw.tempFolder_eq]⟩
  · rw [hcreate] at h
    cases h

/-- A file in a folder that stands is replaced by way of a temporary file beside it. -/
theorem within_replace (hstands : σ.start.Stands p.parent) (hp : σ.Grants p)
    (htemp : ∀ n, σ.Grants ((σ.start.tempFolder p.parent).child (World.tempName p.name n)))
    (bytes : Bytes) : (replace p bytes).run.Within σ := by
  have h : Kind.Composes fun _ p => p.Within σ := Within.composes
  have hfolder : (ensureFolder p.parent).run.Within σ := .of_still fun w hw => by
    obtain ⟨hresult, hworld, -⟩ := (does_ensureFolder_stands (hw.stands hstands)).ends
    exact Prod.ext hresult hworld
  refine h.andThen hfolder fun _ => Within.andThen (.request htemp) fun w temp hw hmade => ?_
  obtain ⟨n, rfl⟩ := createTemp_spec hw hmade
  have hmove : (fillAndMove _ p bytes).run.Within σ :=
    h.fillAndMove (.request (htemp n)) hp.clear.look (fun _ => .request (htemp n))
      (.request ⟨htemp n, hp⟩)
  refine h.andThen (h.lift hmove) fun r => ?_
  cases r with
  | ok _ => exact h.pure _
  | error f =>
    exact h.andThen (h.discard (htemp n).clear.look (htemp n).unlink) fun _ => h.throw f

end FileTask
end

end ConfigSteward
