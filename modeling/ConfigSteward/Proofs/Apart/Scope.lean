import ConfigSteward.Proofs.Backup.Order
import ConfigSteward.Proofs.Site.Undo
import ConfigSteward.Proofs.World.Editing
import ConfigSteward.Proofs.World.Oblivious

/-!
# Scopes

A scope says what some work may change and what it may not look at, since other work changes it.
Requests within the scope are answered alike in worlds that differ in the others' places alone,
which they leave as they are.
-/
namespace ConfigSteward

open Plan

/-- Programs whose results depend on their arguments alone and that touch no file. -/
def Programs.Settled (programs : Programs) : Prop :=
  ∃ f : List String → CommandResult, ∀ ran args tree, programs ran args tree = (.ok (f args), tree)

namespace World

variable {w₀ w v : World} {r : Request}

/-- A world of files and folders in which nothing but a call changes anything: its clock stands in a
year of four digits, as it did whenever a reading was noted, and its programs are settled. -/
structure Settled (w : World) : Prop where
  regular : w.Regular
  stamped : w.Stamped
  now : 1000 ≤ (Civil.ofSeconds (w.clock / 1000000)).year ∧
    (Civil.ofSeconds (w.clock / 1000000)).year ≤ 9999
  programs : w.programs.Settled

/-- What calls make of a world: other files and other readings noted. -/
structure Becomes (w₀ w : World) : Prop where
  settled : w.Settled
  here : w.here = w₀.here
  clock : w.clock = w₀.clock
  programs : w.programs = w₀.programs
  draw : w.draw = w₀.draw
  skeleton : ∀ q, w.tree.skeleton q = w₀.tree.skeleton q

theorem Settled.quiet (h : w.Settled) : w.Quiet := by
  obtain ⟨f, hf⟩ := h.programs
  intro ran args tree
  rw [hf]

theorem Settled.becomes (h : w.Settled) : w.Becomes w := ⟨h, rfl, rfl, rfl, rfl, fun _ => rfl⟩

theorem Becomes.stands {p : Path} (h : w₀.Becomes w) (hp : w₀.Stands p) : w.Stands p :=
  hp.mono (.of_eq h.skeleton) h.here

theorem Becomes.tempFolder_eq (h : w₀.Becomes w) (folder : Path) :
    w.tempFolder folder = w₀.tempFolder folder := by
  rw [tempFolder, tempFolder, h.here]

/-- A request that leaves the folders as they are makes no other kind of world. -/
theorem Becomes.perform (h : w₀.Becomes w) (hr : r.Acts)
    (hskeleton : ∀ q, (w.perform r).2.tree.skeleton q = w.tree.skeleton q) :
    w₀.Becomes (w.perform r).2 := by
  obtain ⟨hhere, hclock, hprograms⟩ := w.perform_frame r
  have hstamped : (w.perform r).2.Stamped := by
    rw [Stamped, perform_keeps_noted hr]
    exact h.settled.stamped
  refine ⟨⟨perform_regular h.settled.regular h.settled.quiet r, hstamped, ?_, ?_⟩,
    hhere.trans h.here, hclock.trans h.clock, hprograms.trans h.programs,
    (w.perform_draw r).trans h.draw, fun q => (hskeleton q).trans (h.skeleton q)⟩
  · rw [hclock]
    exact h.settled.now
  · rw [hprograms]
    exact h.settled.programs

end World

/-- What some work may change and what it may not look at. All work began in the world `start`. -/
structure Scope where
  start : World
  /-- The places that the work may change. -/
  own : Place → Prop
  /-- The places that other work changes. -/
  others : Place → Prop
  /-- The artifacts for which the work asks for readings and notes them. -/
  artifacts : String → Prop

namespace Scope

variable {σ : Scope} {w v u : World} {p source target folder : Path} {place : Place} {base : String}
  {r : Request} {α : Type}

/-- Two worlds that the work cannot tell apart. -/
structure Agrees (σ : Scope) (w v : World) : Prop where
  left : σ.start.Becomes w
  right : σ.start.Becomes v
  entry : ∀ q, ¬ σ.others q → v.tree.get? q = w.tree.get? q
  last : ∀ artifact, σ.artifacts artifact → v.last artifact = w.last artifact

/-- All that the work may not change is as it was. -/
structure Keeps (σ : Scope) (w v : World) : Prop where
  entry : ∀ q, ¬ σ.own q → v.tree.get? q = w.tree.get? q
  last : ∀ artifact, ¬ σ.artifacts artifact → v.last artifact = w.last artifact

/-- Work done in two worlds comes to one result and to worlds that cannot be told apart, and has
changed nothing but its own. -/
structure Follows (σ : Scope) (w : World) (a b : α × World) : Prop where
  same : b.1 = a.1
  agrees : σ.Agrees a.2 b.2
  keeps : σ.Keeps w a.2

theorem Keeps.refl (w : World) : σ.Keeps w w := ⟨fun _ _ => rfl, fun _ _ => rfl⟩

theorem Keeps.trans (h : σ.Keeps w v) (h' : σ.Keeps v u) : σ.Keeps w u :=
  ⟨fun q hq => (h'.entry q hq).trans (h.entry q hq),
    fun artifact ha => (h'.last artifact ha).trans (h.last artifact ha)⟩

theorem agrees_refl (h : σ.start.Becomes w) : σ.Agrees w w := ⟨h, h, fun _ _ => rfl, fun _ _ => rfl⟩

/-- The way to the end of the path is past none of the others' places. -/
def Clear (σ : Scope) (p : Path) : Prop :=
  ∀ front, front <+: p.parts → ¬ σ.others (Path.collapse (p.start σ.start.here) front)

/-- The path leads past none of the others' places to a place that may be changed. -/
structure Grants (σ : Scope) (p : Path) : Prop where
  clear : σ.Clear p
  own : σ.own (p.placeFrom σ.start.here)

/-- The requests within the scope. -/
def Allows (σ : Scope) : Request → Prop
  | .read p | .look p => σ.Clear p
  | .create p | .fill p _ | .setMode p _ | .unlink p => σ.Grants p
  | .createTemp folder base =>
    ∀ n, σ.Grants ((σ.start.tempFolder folder).child (World.tempName base n))
  | .move source target => σ.Grants source ∧ σ.Grants target
  | .makeFolder p => σ.start.Stands p
  | .resolve _ | .run _ | .acquire _ | .release _ => True
  | .list _ | .clock | .latest _ | .note _ _ => False

namespace Agrees

variable (h : σ.Agrees w v)
include h

/-! ### What is found on a clear path -/

private theorem walk_eq (hp : σ.Clear p) (follow : Bool) :
    v.tree.walk follow v.here p = w.tree.walk follow w.here p := by
  rw [Tree.walk, Tree.walk, h.left.here, h.right.here,
    Tree.walkFrom_congr h.left.settled.regular.linkless fun front hfront => h.entry _ (hp front hfront)]

theorem get?_eq {follow : Bool} (hp : σ.Clear p) (hwalk : w.tree.walk follow w.here p = .ok place) :
    v.tree.get? place = w.tree.get? place := by
  rw [h.left.settled.regular.place_eq hwalk, h.left.here]
  exact h.entry _ (hp p.parts List.prefix_rfl)

private theorem onNode_eq (hp : σ.Clear p) (f : Place → Node → Except Fault α) :
    v.onNode p f = w.onNode p f := by
  rw [World.onNode, World.onNode, h.walk_eq hp]
  rcases hwalk : w.tree.walk true w.here p with cause | place
  · rfl
  · simp only [h.get?_eq hp hwalk]

theorem vacancy_eq (hp : σ.Clear p) : v.vacancy p = w.vacancy p := by
  rw [World.vacancy, World.vacancy, h.walk_eq hp]
  rcases hwalk : w.tree.walk false w.here p with cause | place
  · rfl
  · simp only [h.get?_eq hp hwalk]

/-! ### What changes on a clear path -/

theorem add (hp : σ.Clear p) (node : Node) : (v.add p node).1 = (w.add p node).1 ∧
    ∀ q, ¬ σ.others q → (v.add p node).2.tree.get? q = (w.add p node).2.tree.get? q := by
  rw [World.add, World.add, h.vacancy_eq hp]
  rcases w.vacancy p with f | place
  · exact ⟨rfl, h.entry⟩
  · exact ⟨rfl, fun q hq => Tree.get?_put_congr (h.entry q hq) place node⟩

theorem createTemp
    (hp : ∀ n, σ.Clear ((σ.start.tempFolder folder).child (World.tempName base n))) :
    (v.createTemp folder base).1 = (w.createTemp folder base).1 ∧ ∀ q, ¬ σ.others q →
      (v.createTemp folder base).2.tree.get? q = (w.createTemp folder base).2.tree.get? q := by
  have hname := World.freeTemp_congr (n := σ.start.draw (σ.start.tempFolder folder) base)
    h.left.settled.regular.sound h.right.settled.regular.sound fun n => by
      rw [World.TempTaken, World.TempTaken, World.tempTaken, World.tempTaken, h.vacancy_eq (hp n),
        h.left.settled.regular.linkless.pointsTo_eq, h.right.settled.regular.linkless.pointsTo_eq]
  obtain ⟨m, hfree, -⟩ :=
    World.freeTemp_least h.left.settled.regular.sound (σ.start.tempFolder folder) base
      (σ.start.draw (σ.start.tempFolder folder) base)
  rw [World.createTemp, World.createTemp, h.left.tempFolder_eq, h.right.tempFolder_eq, h.left.draw,
    h.right.draw, hname, hfree]
  obtain ⟨hsame, hentry⟩ := h.add (hp m) (.file [] World.privateMode .lately)
  rcases hw : w.add ((σ.start.tempFolder folder).child (World.tempName base m))
    (.file [] World.privateMode .lately) with ⟨r, w'⟩
  rcases hv : v.add ((σ.start.tempFolder folder).child (World.tempName base m))
    (.file [] World.privateMode .lately) with ⟨r', v'⟩
  rw [hw, hv] at hsame hentry
  obtain rfl : r' = r := hsame
  cases r' with
  | ok _ => exact ⟨rfl, hentry⟩
  | error f => exact ⟨rfl, hentry⟩

theorem alter (hp : σ.Clear p) (f : Bytes → Nat → Changed → Node) :
    (v.alter p f).1 = (w.alter p f).1 ∧
      ∀ q, ¬ σ.others q → (v.alter p f).2.tree.get? q = (w.alter p f).2.tree.get? q := by
  rw [World.alter, World.alter, h.walk_eq hp]
  rcases hwalk : w.tree.walk true w.here p with cause | place
  · exact ⟨rfl, h.entry⟩
  simp only [h.get?_eq hp hwalk]
  rcases w.tree.get? place with _ | ⟨bytes, mode, changed⟩ | _ | link
  · exact ⟨rfl, h.entry⟩
  · exact ⟨rfl, fun q hq => Tree.get?_put_congr (h.entry q hq) place _⟩
  · exact ⟨rfl, h.entry⟩
  · exact ⟨rfl, h.entry⟩

theorem unlink (hp : σ.Clear p) : (v.unlink p).1 = (w.unlink p).1 ∧
    ∀ q, ¬ σ.others q → (v.unlink p).2.tree.get? q = (w.unlink p).2.tree.get? q := by
  rw [World.unlink, World.unlink, h.walk_eq hp]
  rcases hwalk : w.tree.walk false w.here p with cause | place
  · exact ⟨rfl, h.entry⟩
  simp only [h.get?_eq hp hwalk]
  have hremoved (q : Place) (hq : ¬ σ.others q) :
      (v.tree.remove place).get? q = (w.tree.remove place).get? q :=
    Tree.get?_remove_congr (h.entry q hq) place
  rcases w.tree.get? place with _ | _ | _ | link
  · exact ⟨rfl, h.entry⟩
  · exact ⟨rfl, hremoved⟩
  · exact ⟨rfl, h.entry⟩
  · exact ⟨rfl, hremoved⟩

theorem move (hsource : σ.Clear source) (htarget : σ.Clear target) :
    (v.move source target).1 = (w.move source target).1 ∧ ∀ q, ¬ σ.others q →
      (v.move source target).2.tree.get? q = (w.move source target).2.tree.get? q := by
  rw [World.move, World.move, h.walk_eq hsource, h.walk_eq htarget]
  rcases horigin : w.tree.walk false w.here source with cause | origin
  · exact ⟨rfl, h.entry⟩
  rcases hgoal : w.tree.walk false w.here target with cause | goal
  · exact ⟨rfl, h.entry⟩
  simp only [h.get?_eq hsource horigin, h.get?_eq htarget hgoal]
  have hmoved (node : Node) (q : Place) (hq : ¬ σ.others q) :
      ((v.tree.remove origin).put goal node).get? q
        = ((w.tree.remove origin).put goal node).get? q :=
    Tree.get?_put_congr (Tree.get?_remove_congr (h.entry q hq) origin) goal node
  rcases w.tree.get? origin with _ | _ | _ | link
  · exact ⟨rfl, h.entry⟩
  · dsimp only
    split_ifs
    exacts [⟨rfl, h.entry⟩, ⟨rfl, h.entry⟩, ⟨rfl, hmoved _⟩]
  · exact ⟨rfl, h.entry⟩
  · dsimp only
    split_ifs
    exacts [⟨rfl, h.entry⟩, ⟨rfl, h.entry⟩, ⟨rfl, hmoved _⟩]

/-! ### Requests -/

/-- A request about files, answered alike, that edits nothing but the work's own places. -/
theorem follows (hr : r.Acts)
    (hmatch : (v.perform r).1 = (w.perform r).1 ∧
      ∀ q, ¬ σ.others q → (v.perform r).2.tree.get? q = (w.perform r).2.tree.get? q)
    (hw : w.Edits (w.perform r).2 σ.own) (hv : v.Edits (v.perform r).2 σ.own) :
    σ.Follows w (w.perform r) (v.perform r) := by
  have hlast (u : World) (artifact : String) : (u.perform r).2.last artifact = u.last artifact := by
    rw [World.last, World.perform_keeps_noted hr, World.last]
  refine ⟨hmatch.1, ⟨h.left.perform hr hw.skeleton, h.right.perform hr hv.skeleton, hmatch.2,
    fun artifact ha => ?_⟩, hw.entry, fun artifact _ => hlast w artifact⟩
  rw [hlast, hlast, h.last artifact ha]

/-- Requests within the scope are answered alike, and what they change is the work's own. -/
theorem perform (hr : σ.Allows r) : σ.Follows w (w.perform r) (v.perform r) := by
  have howned {p : Path} (hp : σ.Grants p) {u : World} (hu : σ.start.Becomes u) :
      ∀ q, q = p.placeFrom u.here → σ.own q := by
    rintro q rfl
    exact hu.here ▸ hp.own
  have hasked (hr : r.Acts) (hsame : (v.perform r).1 = (w.perform r).1)
      (hw : (w.perform r).2.tree = w.tree) (hv : (v.perform r).2.tree = v.tree) :
      σ.Follows w (w.perform r) (v.perform r) := by
    have hedits {u u' : World} (hu : u'.tree = u.tree) : u.Edits u' σ.own :=
      ⟨fun q => by rw [hu], fun q _ => by rw [hu]⟩
    exact h.follows hr ⟨hsame, fun q hq => by rw [hw, hv, h.entry q hq]⟩ (hedits hw) (hedits hv)
  have hleft := h.left.settled.regular
  have hright := h.right.settled.regular
  cases r with
  | read p => exact hasked trivial (h.onNode_eq hr _) rfl rfl
  | look p => exact hasked trivial (h.onNode_eq hr _) rfl rfl
  | list | clock | latest | note => exact hr.elim
  | create p =>
    exact h.follows trivial (h.add hr.clear _)
      ((hleft.add_edits p _ _ _).mono (howned hr h.left))
      ((hright.add_edits p _ _ _).mono (howned hr h.right))
  | createTemp folder base =>
    have htemp {u : World} (hu : σ.start.Becomes u) :
        u.Edits (u.createTemp folder base).2 σ.own := by
      refine (hu.settled.regular.createTemp_edits folder base).mono ?_
      rintro q ⟨n, rfl⟩
      rw [hu.tempFolder_eq, hu.here]
      exact (hr n).own
    exact h.follows trivial (h.createTemp fun n => (hr n).clear) (htemp h.left) (htemp h.right)
  | fill p bytes =>
    exact h.follows trivial (h.alter hr.clear _)
      ((hleft.alter_edits p fun _ _ _ => ⟨_, _, _, rfl⟩).mono (howned hr h.left))
      ((hright.alter_edits p fun _ _ _ => ⟨_, _, _, rfl⟩).mono (howned hr h.right))
  | setMode p mode =>
    exact h.follows trivial (h.alter hr.clear _)
      ((hleft.alter_edits p fun _ _ _ => ⟨_, _, _, rfl⟩).mono (howned hr h.left))
      ((hright.alter_edits p fun _ _ _ => ⟨_, _, _, rfl⟩).mono (howned hr h.right))
  | move source target =>
    have hmoved {u : World} (hu : σ.start.Becomes u) : u.Edits (u.move source target).2 σ.own := by
      refine (hu.settled.regular.move_edits source target).mono fun q hq => ?_
      exact hq.elim (howned hr.1 hu q) (howned hr.2 hu q)
    exact h.follows trivial (h.move hr.1.clear hr.2.clear) (hmoved h.left) (hmoved h.right)
  | unlink p =>
    exact h.follows trivial (h.unlink hr.clear)
      ((hleft.unlink_edits p).mono (howned hr h.left))
      ((hright.unlink_edits p).mono (howned hr h.right))
  | makeFolder p =>
    have hmade {u : World} (hu : σ.start.Becomes u) :
        u.perform (.makeFolder p) = (World.fault .alreadyThere p, u) := (hu.stands hr).add_eq .folder
    refine hasked trivial ?_ ?_ ?_
    · rw [hmade h.left, hmade h.right]
    · rw [hmade h.left]
    · rw [hmade h.right]
  | resolve p =>
    refine hasked trivial ?_ rfl rfl
    change v.tree.resolve v.here p = w.tree.resolve w.here p
    rw [hleft.linkless.resolve_eq, hright.linkless.resolve_eq, h.left.here, h.right.here]
  | run args =>
    obtain ⟨f, hf⟩ := h.left.settled.programs
    have hran {u : World} (hu : u.programs = w.programs) :
        (u.perform (.run args)).1 = .ok (f args) ∧ (u.perform (.run args)).2.tree = u.tree := by
      have heq := hf u.ran args u.tree
      rw [← hu] at heq
      exact ⟨congrArg Prod.fst heq, congrArg Prod.snd heq⟩
    have hsame : v.programs = w.programs := h.right.programs.trans h.left.programs.symm
    exact hasked trivial ((hran hsame).1.trans (hran rfl).1.symm) (hran rfl).2 (hran hsame).2
  | acquire | release => exact ⟨rfl, h, .refl w⟩

end Agrees
end Scope
end ConfigSteward
