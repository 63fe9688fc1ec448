import ConfigSteward.Proofs.Text.Utf8
import ConfigSteward.Proofs.World.AllOrNothing
import ConfigSteward.Proofs.World.Endings
import ConfigSteward.World.Bounded

/-!
# Runs under the limit on the size of files

A run under the limit is one of the runs that `MayEnd` lists, with a torn fill where a content is too
large, so what holds however the calls fare holds of it. Where no limit is set at any time it is the
usual run. A replacement is done in full or leaves nothing but folders under any limit.
-/
namespace ConfigSteward

open Plan

/-! ### The limit shown and read -/

namespace SizeLimit

private theorem ofLine?_line (limit : Option Nat) : ofLine? (line limit) = limit := by
  cases limit with
  | none => rfl
  | some n =>
    have hdrop : (line (some n)).drop label.length = Nat.toDigits 10 n ++ " bytes\n".toList := by
      rw [line, List.append_assoc, List.drop_left]
    have hdigits : (Nat.toDigits 10 n ++ " bytes\n".toList).takeWhile Char.isDigit
        = Nat.toDigits 10 n := by
      rw [List.takeWhile_append_of_pos fun c hc =>
        Nat.isDigit_of_mem_toDigits (by decide) (by decide) hc]
      exact List.append_nil _
    have hsome : Nat.toDigits 10 n ≠ [] := by simp
    rw [ofLine?, hdrop, hdigits]
    split
    · next h => exact absurd h hsome
    · rw [Nat.ofDigitChars_ten_toDigits]

end SizeLimit

namespace Tree

variable {t : Tree} {place : Place}

theorem sizeLimit?_limitSize (t : Tree) (limit : Option Nat) :
    (t.limitSize limit).sizeLimit? = limit := by
  have hshown : (t.limitSize limit).get? limitsPlace = some (SizeLimit.shown limit) := by
    rw [limitSize, get?_put _ _ _ _ (by decide), if_pos rfl]
  have hline : Text.decodeLossyChars (Text.encodeString (String.ofList (SizeLimit.line limit)))
      = SizeLimit.line limit := by
    rw [Text.encodeString, String.toList_ofList, Text.decodeLossyChars_flatMap]
  rw [sizeLimit?, hshown]
  exact (congrArg SizeLimit.ofLine? hline).trans (SizeLimit.ofLine?_line limit)

theorem sizeLimit?_put (hplace : place ≠ limitsPlace) (node : Node) :
    (t.put place node).sizeLimit? = t.sizeLimit? := by
  rw [sizeLimit?, sizeLimit?, get?_put _ _ _ _ (by decide), if_neg hplace.symm]

end Tree

/-! ### One request -/

theorem Fault.untimely_tooLarge (p : Path) : (tooLarge p).Untimely := ⟨nofun, nofun⟩

namespace World

variable {w : World} {r : Request} {p : Path} {bytes : Bytes} {limit : Nat}

private theorem performBounded_of_unlimited (h : w.tree.sizeLimit? = none) (r : Request) :
    w.performBounded r = w.perform r := by
  cases r with
  | fill p bytes => simp only [performBounded, h]
  | _ => rfl

/-- That a file cannot be changed is not up to what it is changed to. -/
theorem alter_of_error {f g : Bytes → Nat → Changed → Node} {e : Fault} {v : World}
    (h : w.alter p f = (.error e, v)) : w.alter p g = (.error e, v) := by
  unfold alter at h ⊢
  split
  · next hwalk => simpa only [hwalk] using h
  · next place hwalk =>
    simp only [hwalk] at h
    split
    · next hfile =>
      simp only [hfile] at h
      cases h
    · next node _ hnode =>
      cases node with
      | file => simp_all
      | folder => simpa only [hnode] using h
      | link => simpa only [hnode] using h
    · next hnone => simpa only [hnone] using h

/-- A request under the limit fares as it may without one. -/
theorem fares_performBounded (w : World) (r : Request) :
    w.Fares .any r (w.performBounded r).1 (w.performBounded r).2 := by
  cases r with
  | fill p bytes =>
    rcases hlimit : w.tree.sizeLimit? with _ | limit
    · rw [performBounded_of_unlimited hlimit]
      exact .well
    have hfill : w.performBounded (.fill p bytes) = w.fillUpTo limit p bytes := by
      simp only [performBounded, hlimit]
    rw [hfill, fillUpTo]
    rcases hcut : w.perform (.fill p (bytes.take limit)) with ⟨f | ⟨⟩, v⟩
    · have hwell : w.Fares .any (.fill p bytes) _ _ := .well
      rwa [show w.perform (.fill p bytes) = (.error f, v) from alter_of_error hcut] at hwell
    · by_cases hlarge : limit < bytes.length
      · simp only [if_pos hlarge]
        exact .torn (Fault.untimely_tooLarge p) rfl ⟨limit, by rw [hcut]⟩
      · simp only [if_neg hlarge]
        have hwell : w.Fares .any (.fill p bytes) _ _ := .well
        rw [List.take_of_length_le (Nat.le_of_not_lt hlarge)] at hcut
        rwa [hcut] at hwell
  | _ => exact .well

end World

/-! ### Whole runs -/

namespace Plan

variable {α β ε : Type} {w v u : World} {p : Plan α}

theorem runBounded_ask (r : Request) (next : r.Reply → Plan α) (w : World) :
    (ask r next).runBounded w
      = (next (w.performBounded r).1).runBounded (w.performBounded r).2 := rfl

@[simp] theorem runBounded_bind (p : Plan α) (f : α → Plan β) (w : World) :
    (p >>= f).runBounded w = (f (p.runBounded w).1).runBounded (p.runBounded w).2 := by
  induction p generalizing w with
  | done a => rfl
  | ask r next ih => exact ih _ _

/-- The run under the limit is one of the runs. -/
theorem mayEnd_runBounded (p : Plan α) (w : World) :
    p.MayEnd .any w (p.runBounded w).1 (p.runBounded w).2 := by
  induction p generalizing w with
  | done a => exact ⟨rfl, rfl⟩
  | ask r next ih => exact ⟨_, _, w.fares_performBounded r, ih _ _⟩

/-- What holds however the calls fare holds under the limit. -/
theorem Always.runBounded {Q : α → World → Prop} (h : p.Always w fun a v _ => Q a v) :
    Q (p.runBounded w).1 (p.runBounded w).2 :=
  always_iff.mp h _ _ (p.mayEnd_runBounded w)

/-- A plan that passes through no world with a limit runs as usual. -/
theorem runBounded_eq_run (h : ∀ v, p.Passes w v → v.tree.sizeLimit? = none) :
    p.runBounded w = p.run w := by
  induction p generalizing w with
  | done a => rfl
  | ask r next ih =>
    rw [runBounded_ask, run_ask, World.performBounded_of_unlimited (h w .here)]
    exact ih _ fun v hv => h v (.later hv)

/-- The limit makes no difference to the plan. -/
def Unbounded (p : Plan α) : Prop := ∀ w, p.runBounded w = p.run w

theorem Unbounded.composes : Kind.Composes fun _ p => p.Unbounded where
  done _ _ := rfl
  bind h hf w := by
    rw [runBounded_bind, run_bind, h w]
    exact hf _ _

section
variable {t : ExceptT ε Plan α} {f : α → ExceptT ε Plan β}

theorem runBounded_andThen_ok {a : α} (h : t.run.runBounded w = (.ok a, v)) :
    (t >>= f).run.runBounded w = (f a).run.runBounded v := by
  rw [ExceptT.run_bind, runBounded_bind, h]

theorem runBounded_andThen_error {e : ε} (h : t.run.runBounded w = (.error e, v)) :
    (t >>= f).run.runBounded w = (.error e, v) := by
  rw [ExceptT.run_bind, runBounded_bind, h]
  rfl

theorem runBounded_lift {q : Plan α} {a : α} (h : q.runBounded w = (a, v)) :
    (ExceptT.lift q : ExceptT ε Plan α).run.runBounded w = (.ok a, v) := by
  rw [ExceptT.run_lift, map_eq_pure_bind, runBounded_bind, h]
  rfl

end
end Plan

/-! ### Replacements -/

namespace FileTask

variable {w : World}

private theorem unbounded_settle (staged : Path × Except Fault Unit) : (settle staged).run.Unbounded := by
  obtain ⟨temp, f | ⟨⟩⟩ := staged
  · exact Unbounded.composes.andThen
      (Unbounded.composes.discard (fun _ => rfl) fun _ => rfl) fun _ => Unbounded.composes.throw f
  · exact Unbounded.composes.pure ()

/-- Under any limit a replacement is done in full or leaves nothing but folders on the way. -/
theorem runBounded_replace_leaves (hw : w.Sound) (p : Path) (bytes : Bytes) :
    Leaves w p bytes (fun _ _ => True) ((replace p bytes).run.runBounded w).1
      ((replace p bytes).run.runBounded w).2 := by
  have hstaged := (always_stage hw p bytes).runBounded
  rw [replace_eq_settle, ExceptT.run_bind, runBounded_bind]
  rcases hstage : (stage p bytes).run.runBounded w with ⟨f | staged, v⟩
  · rw [hstage] at hstaged
    exact hstaged
  · rw [hstage] at hstaged
    change Leaves w p bytes _ ((settle staged).run.runBounded v).1
      ((settle staged).run.runBounded v).2
    rw [unbounded_settle staged v]
    exact hstaged.ends

end FileTask
end ConfigSteward
