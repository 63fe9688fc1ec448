import ConfigSteward.Proofs.World.Steady
import ConfigSteward.Save.Apply

/-!
# Putting back what was there

Once a file was replaced, putting its prior content back does not fail: the file that was there is
replaced in its turn, in the same folder, and a file that was not there is taken away.
-/
namespace ConfigSteward

open Plan

namespace Tree

/-- The tree with the prior content of a place put back. -/
def putBack (t : Tree) (place : Place) (mode : Nat) : Option Bytes → Tree
  | none => t.remove place
  | some bytes => t.put place (.file bytes mode .lately)

theorem putBack_sets {t : Tree} {place : Place} (hplace : place ≠ []) (mode : Nat)
    (prior : Option Bytes) :
    t.Sets place (prior.map fun bytes => .file bytes mode .lately) (t.putBack place mode prior) := by
  cases prior with
  | none => exact remove_sets hplace
  | some bytes => exact put_sets hplace _

private theorem modeOver_mod (t : Tree) (place : Place) : t.modeOver place % 0o1000 = t.modeOver place := by
  unfold modeOver
  split
  · omega
  · rfl

end Tree

namespace Save

variable {w u v : World} {p : Path} {goal : Place} {content : Bytes} {mode : Nat}
  {prior : Option Bytes}

/-- The worlds in the middle of putting the prior content back: there may be a hidden temporary
file, or it is back in full. -/
inductive PuttingBack (p : Path) (v : World) (t : Tree) : World → Prop where
  | start : PuttingBack p v t v
  | temp {r : Place} {n : Nat} {content : Bytes} {mode : Nat}
      (vacant : v.tree.get? (r ++ [World.tempName p.name n]) = none) : PuttingBack p v t { v with
        tree := v.tree.put (r ++ [World.tempName p.name n]) (.file content mode .lately) }
  | done : PuttingBack p v t { v with tree := t }

theorem does_unlinkIfThere {bytes : Bytes} {changed : Changed} (hlands : v.Lands p goal)
    (hfile : v.tree.get? goal = some (.file bytes mode changed)) :
    (unlinkIfThere p).run.Does (fun x => x = v ∨ x = { v with tree := v.tree.remove goal }) v
      fun r x es => r = .ok () ∧ x = { v with tree := v.tree.remove goal } ∧ es = [] := by
  rw [unlinkIfThere]
  refine does_andThen.mpr (FileTask.does_attempt.mpr (FileTask.does_unlink.mpr ?_))
  rw [hlands.unlink_file hfile]
  exact ⟨.inl rfl, .inr rfl, does_pure.mpr ⟨.inr rfl, rfl, rfl, rfl⟩⟩

/-- Where a file was replaced, its prior content can be put back. -/
theorem does_putBack (hw : w.Sound) (hp : w.Steady p) (hreplaces : w.Replaces p u goal mode)
    (hv : World.Alike { u with tree := u.tree.put goal (.file content mode .lately) } v)
    (hdraw : v.draw = u.draw) (hprior : ∀ bytes, prior = some bytes → w.read p = .ok bytes) :
    (putBack p prior).run.Does (PuttingBack p v (u.tree.putBack goal mode prior)) v
      fun r x es => r = .ok () ∧ x = { v with tree := u.tree.putBack goal mode prior } ∧
        es = [] := by
  have hlands := hreplaces.lands hw hp
  have hmode := hreplaces.mode hlands.leaf
  have hthere : v.Lands p goal := hv.lands (hlands.at_put content mode .lately)
  have hfile : v.tree.get? goal = some (.file content mode .lately) := by
    rw [hv.1]
    exact hlands.get_put _
  have hsound : v.Sound :=
    hv.sound (hlands.put_sound (hreplaces.dug.sound hw) content mode .lately)
  cases prior with
  | none =>
    have htree : v.tree.remove goal = u.tree.putBack goal mode none := by
      rw [hv.1, Tree.remove_put, Tree.putBack]
    rw [putBack, ← htree]
    refine (does_unlinkIfThere hthere hfile).mono ?_ (fun _ _ _ h => h)
    rintro x (rfl | rfl)
    · exact .start
    · exact .done
  | some bytes =>
    obtain ⟨place, mode₀, changed, hplace, hbytes⟩ := hp.lands_of_read (hprior bytes rfl)
    obtain ⟨rfl, rfl, -⟩ := hreplaces.of_lands hw hplace
    have hset : ∀ q, q ≠ goal → v.tree.get? q = u.tree.get? q := by
      intro q hq
      rw [hv.1]
      exact (Tree.put_sets hplace.ne_nil _).other hq
    have hagain : ∃ temp, (v.createTemp p.parent p.name).1 = .ok temp := by
      obtain ⟨temp, htemp⟩ := hreplaces.temp
      have hhere : v.here = u.here := hv.2
      refine World.createTemp_again (hreplaces.dug.sound hw) hsound hhere hdraw (fun q => ?_)
        (fun q => ?_) htemp
      · rw [hv.1]
        exact hplace.put_file content mode .lately q
      · by_cases hq : q = goal
        · subst hq
          simp [hfile, hbytes]
        · rw [hset q hq]
    have hfinal {x y : World} {goal' : Place} {mode' : Nat} (hx : v.Replaces p x goal' mode')
        (hy : y = { x with tree := x.tree.put goal' (.file bytes mode' .lately) }) :
        y = { v with tree := u.tree.putBack goal mode (some bytes) } := by
      obtain ⟨rfl, rfl, rfl⟩ := hx.of_lands hsound hthere
      have hmode' : x.tree.modeOver goal' = mode := by
        rw [Tree.modeOver_of_file hfile, hmode, Tree.modeOver_mod]
      rw [hy, hmode', hv.1, Tree.put_put, Tree.putBack]
    rw [putBack]
    refine (FileTask.does_replace hsound p bytes).mono ?_ ?_
    · rintro x (⟨hdug⟩ | ⟨hdug, vacant⟩ | ⟨hx⟩)
      · rw [hdug.of_lands hsound hthere]
        exact .start
      · obtain rfl := hdug.of_lands hsound hthere
        exact .temp vacant
      · rw [hfinal hx rfl]
        exact .done
    · rintro (f | ⟨⟩) x es ⟨rfl, hresult⟩
      · obtain ⟨temp, htemp⟩ := hagain
        exact absurd htemp (hresult.2 goal temp hthere)
      · obtain ⟨y, goal', mode', hy, hx⟩ := hresult
        exact ⟨rfl, hfinal hy hx, rfl⟩

end Save
end ConfigSteward
