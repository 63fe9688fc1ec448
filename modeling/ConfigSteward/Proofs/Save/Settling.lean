import ConfigSteward.Proofs.Backup.Keeping
import ConfigSteward.Proofs.Save.Course

/-!
# What a save settles

In a tree of files and folders a save either leaves every file but the backup with its bytes, and
its outcome tells of an early failure, or the new content is in place and has passed its check. The
backup that the outcome names holds the prior content.
-/
namespace ConfigSteward

namespace Save

open World

variable {s : Save} {store : Store} {c : Controller} {w u v : World} {prior : Option Bytes}
  {name : String} {place goal q : Place} {mode : Nat} {o : Outcome} {r : Except Failure Outcome}
  {es : List Execution}

/-- The save touched nothing but its file and places for a new backup. -/
def Touches (s : Save) (store : Store) (w : World) (q : Place) : Prop :=
  q = s.path.placeFrom w.here ∨ store.Free w q

/-- All files but backups hold what they held. -/
def Reverts (store : Store) (w v : World) : Prop :=
  ∀ q, ¬ store.Owns q → v.tree.bytesAt q = w.tree.bytesAt q

/-- The new content is in place and was found good. -/
structure Applies (s : Save) (c : Controller) (w v : World) : Prop where
  read : v.read s.path = .ok s.content
  checked : ∃ x : World, x.Alike v ∧ x.programs = w.programs ∧
    (CommandResult.seen (x.replyTo (s.checkArgs c))).exitOk = true

theorem leaf_of_sets {t t' : Tree}
    (hset : t.Sets goal (prior.map fun bytes => .file bytes mode .lately) t') :
    t'.skeleton goal = none := by
  cases prior with
  | none => exact Tree.skeleton_of_vacant hset.self
  | some bytes => exact Tree.skeleton_of_file hset.self

theorem Backs.regular (backs : s.Backs store w prior name place) (hw : w.Regular) :
    (s.stored w prior place).Regular := backs.slot.regular hw _

theorem Prior.eq_some {p : Path} {prior : Option Bytes} {bytes : Bytes}
    (h : Prior w p prior) (hread : w.read p = .ok bytes) : prior = some bytes := by
  cases prior with
  | none =>
    obtain ⟨f, herror, -⟩ := h
    rw [hread] at herror
    cases herror
  | some bytes' =>
    cases hread.symm.trans h
    rfl

/-- Up to the moment before the file is set, the readings are those that the backup noted. -/
theorem Writes.noted (writes : s.Writes store w prior name place u goal mode) :
    u.noted = (w.noting s.artifact).noted ∧ u.programs = w.programs := by
  obtain ⟨t, -, rfl⟩ := writes.replaces.dug
  exact ⟨rfl, rfl⟩

theorem Writes.goal_eq (writes : s.Writes store w prior name place u goal mode) (hw : w.Regular) :
    goal = s.path.placeFrom w.here := writes.replaces.goal_eq (writes.backs.regular hw)

theorem Writes.applies (writes : s.Writes store w prior name place u goal mode) (hw : w.Regular)
    (hv : (s.written u goal mode).Alike v)
    (hgood : (CommandResult.seen ((s.written u goal mode).replyTo (s.checkArgs c))).exitOk = true) :
    s.Applies c w v := by
  refine ⟨?_, _, hv, writes.noted.2, hgood⟩
  rw [hv.read_eq]
  exact writes.replaces.read_new (writes.backs.regular hw) s.content

theorem Writes.lands (writes : s.Writes store w prior name place u goal mode) (hw : w.Regular) :
    u.Lands s.path goal := writes.replaces.lands_goal (writes.backs.regular hw)

section
variable (hw : w.Regular) (hs : ".." ∉ store.folder)
include hw hs

/-- Up to the moment before the file is set, only the backup and folders are new. -/
theorem Writes.alters (writes : s.Writes store w prior name place u goal mode) :
    w.Alters u (store.Free w) :=
  (writes.backs.slot.alters hw hs _).trans (.of_dug writes.replaces.dug)

theorem Writes.sets_alters (writes : s.Writes store w prior name place u goal mode)
    {node : Option Node} (hset : u.tree.Sets goal node v.tree) (hhere : v.here = u.here)
    (hleaf : v.tree.skeleton goal = none) : w.Alters v (s.Touches store w) :=
  ((writes.backs.slot.alters hw hs _).mono fun _ hq => .inr hq).trans
    ((writes.replaces.alters_of_sets (writes.backs.regular hw) hset hhere hleaf).mono
      fun _ hq => .inl hq)

/-- Whatever becomes of the file, the backup beside it stays. -/
theorem Backs.read_kept (hplace : ¬ store.Owns (s.path.placeFrom w.here))
    (backs : s.Backs store w prior name place)
    (halters : (s.stored w prior place).Alters v (· = s.path.placeFrom w.here)) :
    v.read (store.pathOf name) = .ok (prior.getD []) := by
  refine (backs.regular hw).read_kept halters ?_ (backs.slot.read_new _)
  rw [Store.placeFrom_pathOf hs backs.slot.endsIn]
  exact fun heq => hplace ⟨name, backs.slot.endsIn, heq.symm⟩

/-- The prior content is that of the file at the goal, if the path is firm. -/
theorem Writes.bytesAt_goal (writes : s.Writes store w prior name place u goal mode)
    (hfirm : w.Firm s.path) : w.tree.bytesAt goal = prior := by
  have hprior := writes.backs.prior
  cases prior with
  | none =>
    obtain ⟨f, herror, -⟩ := hprior
    refine Option.eq_none_iff_forall_ne_some.mpr fun bytes hbytes => ?_
    have hu := writes.replaces.dug.regular (writes.backs.regular hw)
    have hread := hw.read_of_entry hu (writes.alters hw hs).here hfirm (writes.lands hw) hbytes
    rw [hread] at herror
    cases herror
  | some bytes =>
    obtain ⟨-, mode', changed, hget⟩ := hw.of_read hprior
    rw [writes.goal_eq hw]
    exact Tree.bytesAt_eq_some_iff.mpr ⟨mode', changed, hget⟩

theorem Writes.reverts (writes : s.Writes store w prior name place u goal mode)
    (hset : u.tree.Sets goal (prior.map fun bytes => .file bytes mode .lately) v.tree)
    (hfirm : w.Firm s.path) : Reverts store w v := by
  intro q hq
  by_cases hgoal : q = goal
  · subst hgoal
    rw [writes.bytesAt_goal hw hs hfirm, Tree.bytesAt, hset.self]
    cases prior <;> rfl
  · rw [Tree.bytesAt_congr (hset.other hgoal)]
    exact (writes.alters hw hs).bytesAt fun hfree => hq hfree.1

/-- Every save touches its file and a new backup at most, and reverts or applies. -/
theorem Ends.settles (h : s.Ends store c w prior name place r v es) :
    w.Alters v (s.Touches store w) ∧
      ((∀ o, r = .ok o → FailsEarly o) ∧ (w.Firm s.path → Reverts store w v) ∨
        s.Applies c w v) := by
  have hreverts {x : World} (halters : w.Alters x (store.Free w)) : Reverts store w x :=
    fun q hq => halters.bytesAt fun hfree => hq hfree.1
  cases h with
  | looped =>
    refine ⟨.of_alike (.refl w), .inl ⟨fun o ho => ?_, fun _ => hreverts (.of_alike (.refl w))⟩⟩
    cases ho
  | refused message hv =>
    have halike := alike_of_noting hv
    refine ⟨.of_alike halike, .inl ⟨fun o ho => ?_, fun _ => hreverts (.of_alike halike)⟩⟩
    cases ho
    exact .inl rfl
  | unwritten message backs dug =>
    have halters := (backs.slot.alters hw hs (prior.getD [])).trans (.of_dug dug)
    refine ⟨halters.mono fun _ hq => .inr hq, .inl ⟨fun o ho => ?_, fun _ => hreverts halters⟩⟩
    cases ho
    exact .inr (.inl rfl)
  | @rejected u goal mode result writes hresult bad =>
    have hset := Tree.putBack_sets (t := u.tree) (writes.lands hw).ne_nil mode prior
    refine ⟨writes.sets_alters hw hs hset rfl (leaf_of_sets hset), .inl ⟨fun o ho => ?_, ?_⟩⟩
    · cases ho
      unfold FailsEarly Save.rejected
      cases result.timedOut <;> simp
    · exact writes.reverts hw hs hset
  | @accepted u goal mode result writes hresult good still =>
    have hset : u.tree.Sets goal _ (s.written u goal mode).tree :=
      Tree.put_sets (writes.lands hw).ne_nil _
    refine ⟨writes.sets_alters hw hs hset rfl (Tree.skeleton_of_file hset.self), .inr ?_⟩
    exact writes.applies hw ⟨rfl, rfl⟩ (by rw [hresult]; exact good)
  | @reloaded u goal mode result result' writes hresult good hresult' =>
    have hset : u.tree.Sets goal _ (s.written u goal mode).tree :=
      Tree.put_sets (writes.lands hw).ne_nil _
    refine ⟨writes.sets_alters hw hs hset rfl (Tree.skeleton_of_file hset.self), .inr ?_⟩
    exact writes.applies hw ⟨rfl, rfl⟩ (by rw [hresult]; exact good)

/-- A backup that the outcome names holds the prior content; without one, all stays as it was. -/
theorem Ends.backs_up (hplace : ¬ store.Owns (s.path.placeFrom w.here))
    (h : s.Ends store c w prior name place r v es) :
    w.Alike v ∧ (∀ o, r = .ok o → o.backup = none) ∨
      ∃ o, r = .ok o ∧ o.backup = some name ∧ s.Backs store w prior name place ∧
        v.read (store.pathOf name) = .ok (prior.getD []) := by
  have hwritten {u : World} {goal : Place} {mode : Nat}
      (writes : s.Writes store w prior name place u goal mode) :=
    writes.backs.read_kept hw hs hplace
      (writes.replaces.alters (writes.backs.regular hw) s.content)
  cases h with
  | looped => exact .inl ⟨.refl w, fun o ho => by cases ho⟩
  | refused message hv =>
    exact .inl ⟨alike_of_noting hv, fun o ho => by cases ho; rfl⟩
  | unwritten message backs dug =>
    exact .inr ⟨_, rfl, rfl, backs, backs.read_kept hw hs hplace (.of_dug dug)⟩
  | @rejected u goal mode result writes hresult bad =>
    have hset := Tree.putBack_sets (t := u.tree) (writes.lands hw).ne_nil mode prior
    refine .inr ⟨_, rfl, rfl, writes.backs, writes.backs.read_kept hw hs hplace ?_⟩
    exact writes.replaces.alters_of_sets (writes.backs.regular hw) hset rfl (leaf_of_sets hset)
  | accepted writes hresult good still =>
    refine .inr ⟨_, rfl, rfl, writes.backs, ?_⟩
    exact hwritten writes
  | @reloaded u goal mode result result' writes hresult good hresult' =>
    refine .inr ⟨_, rfl, ?_, writes.backs, ?_⟩
    · unfold Outcome.afterReload
      rcases result'.exitOk <;> rcases result'.timedOut <;> rfl
    · exact hwritten writes

end

theorem Ends.notes (h : s.Ends store c w prior name place r v es) : w.Notes v := by
  cases h with
  | looped => exact .inl rfl
  | refused message hv => exact notes_of_noting hv
  | unwritten message backs dug =>
    obtain ⟨t, -, rfl⟩ := dug
    exact .inr ⟨_, rfl⟩
  | rejected writes | accepted writes | reloaded writes => exact .inr ⟨_, writes.noted.1⟩

end Save
end ConfigSteward
