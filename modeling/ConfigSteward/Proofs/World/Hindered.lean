import Mathlib
import ConfigSteward.Proofs.World.Mishaps
import ConfigSteward.Proofs.World.Replacing

/-!
# Replacing a file amid mishaps

Whatever goes wrong on the way, a replacement either sets the place at which the path ends or leaves
nothing but folders and its temporary file.
-/
namespace ConfigSteward

open Plan

/-- A mark of work on a temporary file. -/
def Mark.Hidden (base : String) : Mark → Prop
  | .filled p _ | .unlinked p => ∃ folder n, p = Path.child folder (World.tempName base n)
  | _ => False

namespace World

variable {w u : World} {p temp : Path} {r place : Place} {n : Nat}

/-- What making folders and a temporary file leaves. -/
def Littered (w : World) (p : Path) (v : World) : Prop :=
  ∃ u, w.Dug p.parent u ∧ (v = u ∨ ∃ r n content mode,
    u.tree.get? (r ++ [tempName p.name n]) = none ∧ v = FileTask.tempIn u p r n content mode)

end World

namespace FileTask

variable {hazard : Hazard} {w u v : World} {p temp : Path} {r : Place} {n : Nat} {bytes : Bytes}

private theorem idle_orFolder (p : Path) (f : Fault) : (orFolder p f).run.Idle :=
  Idle.composes.orFolder (Idle.asking.asks (.look p) trivial) f

theorem always_leads {test : Status → Bool} {Q : Except Fault Bool → World → List Mark → Prop} :
    (leads p test).run.Leaves hazard w Q ↔ Q (leadsIn w p test) w [] ∧
      ∀ f, hazard.strikes w (.look p) f →
        Q (if f.cause.leadsNowhere then .ok false else .error f) w [] := by
  have hfault (f : Fault) : (ExceptT.run (if f.cause.leadsNowhere then pure false else throw f) :
      Plan (Except Fault Bool)) = .done (if f.cause.leadsNowhere then .ok false else .error f) := by
    split <;> rfl
  rw [leads]
  refine always_andThen.trans (always_attempt.trans (always_look.trans (and_congr ?_ ?_)))
  · rw [leadsIn]
    rcases w.look p with f | status
    · simp only [hfault, always_done, List.append_nil]
    · simp
  · simp only [hfault, always_done, List.append_nil]

/-- The mode of a file is found, unless the question fails. -/
theorem always_modeFor (w : World) (p : Path) :
    (modeFor p).run.Leaves hazard w fun result v marks => v = w ∧ marks = [] ∧
      (hazard.Blatant → ∀ mode place, result = .ok mode → w.Lands p place →
        mode = w.tree.modeOver place) := by
  rw [modeFor, exists?]
  refine always_andThen.mpr (always_leads.mpr ⟨?_, fun f hf => ?_⟩)
  · rcases hleads : leadsIn w p (fun _ => true) with f | found
    · exact ⟨rfl, rfl, by simp⟩
    cases found with
    | false =>
      refine ⟨rfl, rfl, fun _ mode place hmode hplace => ?_⟩
      obtain rfl := Except.ok.inj hmode
      rcases Tree.skeleton_eq_none_iff.mp hplace.leaf with hnone | ⟨_, _, _, hfile⟩
      · simp [Tree.modeOver, hnone, World.plainMode]
      · simp [leadsIn, hplace.look_file hfile] at hleads
    | true =>
      refine always_andThen.mpr (always_look.mpr ⟨?_, fun f _ => ⟨rfl, rfl, by simp⟩⟩)
      rcases hlook : w.look p with f | status
      · exact ⟨rfl, rfl, by simp⟩
      refine ⟨rfl, rfl, fun _ mode place hmode hplace => ?_⟩
      obtain rfl := Except.ok.inj hmode
      rcases Tree.skeleton_eq_none_iff.mp hplace.leaf with hnone | ⟨_, _, _, hfile⟩
      · rw [hplace.look_vacant hnone] at hlook
        cases hlook
      · rw [hplace.look_file hfile] at hlook
        obtain rfl := Except.ok.inj hlook
        simp [Tree.modeOver, hfile]
  · by_cases hnowhere : f.cause.leadsNowhere = true
    · rw [if_pos hnowhere]
      refine ⟨rfl, rfl, fun hblatant => ?_⟩
      rw [hblatant hf] at hnowhere
      cases hnowhere
    · rw [if_neg hnowhere]
      exact ⟨rfl, rfl, by simp⟩

theorem always_makeOneFolder (hv : w.Dug p v) :
    (makeOneFolder p).run.Leaves hazard v fun _ u marks => w.Dug p u ∧ marks = [] := by
  have hfailed (f : Fault) :
      (if f.cause = .noEntry then throw f else orFolder p f : FileTask Unit).run.Leaves hazard v
        fun _ u marks => w.Dug p u ∧ marks = [] := by
    split
    · exact ⟨hv, rfl⟩
    · refine (idle_orFolder p f hazard v).mono ?_
      rintro _ u marks ⟨rfl, rfl⟩
      exact ⟨hv, rfl⟩
  rw [makeOneFolder]
  refine always_andThen.mpr (always_attempt.mpr (always_makeFolder.mpr ⟨?_, fun f _ => hfailed f⟩))
  rcases v.add_cases p .folder with ⟨place, hlands, hnone, hadd⟩ | ⟨f, -, hadd⟩
  · rw [hadd]
    exact ⟨hv.trans (hlands.dug hnone), rfl⟩
  · rw [hadd]
    exact hfailed f

theorem always_ensureFolder (w : World) (p : Path) :
    (ensureFolder p).run.Leaves hazard w fun _ v marks => w.Dug p v ∧ marks = [] := by
  induction p using ensureFolder.induct with
  | case1 p ih =>
    have hfailed (f : Fault) :
        (if f.cause = .noEntry then
            if _h : p.isBare = true then throw f
            else do
              ensureFolder p.parent
              makeOneFolder p
          else orFolder p f : FileTask Unit).run.Leaves hazard w fun _ v marks =>
            w.Dug p v ∧ marks = [] := by
      split
      · split
        · exact ⟨.refl w p, rfl⟩
        · next hbare =>
          refine always_andThen.mpr ((ih hbare).mono ?_)
          rintro (f | ⟨⟩) v marks ⟨hdug, rfl⟩
          · exact ⟨hdug.of_parent, rfl⟩
          · exact always_makeOneFolder hdug.of_parent
      · refine (idle_orFolder p f hazard w).mono ?_
        rintro _ v marks ⟨rfl, rfl⟩
        exact ⟨.refl _ p, rfl⟩
    rw [ensureFolder]
    refine always_andThen.mpr (always_attempt.mpr (always_makeFolder.mpr
      ⟨?_, fun f _ => hfailed f⟩))
    rcases w.add_cases p .folder with ⟨place, hlands, hnone, hadd⟩ | ⟨f, -, hadd⟩
    · rw [hadd]
      exact ⟨hlands.dug hnone, rfl⟩
    · rw [hadd]
      exact hfailed f

section
variable (hu : u.Sound) (hlands : u.Lands temp (r ++ [World.tempName p.name n]))
  (vacant : u.tree.get? (r ++ [World.tempName p.name n]) = none)
include hlands

private theorem lands_tempIn (content : Bytes) (mode : Nat) :
    (tempIn u p r n content mode).Lands temp (r ++ [World.tempName p.name n]) :=
  hlands.at_put content mode .lately

private theorem get?_tempIn (content : Bytes) (mode : Nat) :
    (tempIn u p r n content mode).tree.get? (r ++ [World.tempName p.name n])
      = some (.file content mode .lately) := hlands.get_put _

/-- Altering the temporary file. -/
theorem alter_tempIn (content : Bytes) (mode : Nat) (content' : Bytes) (mode' : Nat)
    {f : Bytes → Nat → Changed → Node} (hf : f content mode .lately = .file content' mode' .lately) :
    (tempIn u p r n content mode).alter temp f = (.ok (), tempIn u p r n content' mode') := by
  rw [(lands_tempIn hlands content mode).alter_file (get?_tempIn hlands content mode), hf,
    put_tempIn]

include vacant

theorem always_discard (htemp : ∃ folder, temp = Path.child folder (World.tempName p.name n))
    (content : Bytes) (mode : Nat) :
    (discard temp).run.Leaves hazard (tempIn u p r n content mode) fun _ v marks =>
      (marks = [] ∨ marks = [.unlinked temp]) ∧
        (v = u ∨ v = tempIn u p r n content mode) ∧ (hazard.Tidy → v = u) := by
  have hunlink : (tempIn u p r n content mode).unlink temp = (.ok (), u) := by
    rw [(lands_tempIn hlands content mode).unlink_file (get?_tempIn hlands content mode)]
    simp only [tempIn, Tree.remove_put, Tree.remove_of_vacant vacant]
  rw [discard]
  obtain ⟨folder, rfl⟩ := htemp
  refine always_andThen.mpr (always_attempt.mpr (always_look.mpr
    ⟨?_, fun f hf => ⟨.inl rfl, .inr rfl, fun htidy => absurd hf (htidy _ _ _ _ f).1⟩⟩))
  rw [(lands_tempIn hlands content mode).look_file (get?_tempIn hlands content mode)]
  refine always_unlink.mpr
    ⟨?_, fun f hf => ⟨.inl rfl, .inr rfl, fun htidy => absurd hf (htidy _ _ _ _ f).2⟩⟩
  rw [hunlink]
  exact ⟨.inr rfl, .inl rfl, fun _ => rfl⟩

include hu

/-- The temporary file takes the place of what the path leads to, or nothing happens. -/
theorem move_tempIn (mode : Nat) :
    (∃ goal, u.tree.walk false u.here p = .ok goal ∧ u.tree.get? goal ≠ some .folder ∧
      (tempIn u p r n bytes mode).move temp p
        = (.ok (), { u with tree := u.tree.put goal (.file bytes mode .lately) })) ∨
    ∃ f, (tempIn u p r n bytes mode).move temp p = (.error f, tempIn u p r n bytes mode) := by
  have hthere := lands_tempIn hlands bytes mode
  have hfile := get?_tempIn hlands bytes mode
  rcases World.move_cases hthere hfile p with ⟨goal, hwalk, hgoal⟩ | hfails
  · left
    have hne : r ++ [World.tempName p.name n] ≠ goal := by
      rintro rfl
      exact World.Lands.ne_temp ⟨hwalk, Tree.skeleton_of_file hfile⟩
        (hlands.put_sound hu bytes mode .lately) r n rfl
    have hother : (tempIn u p r n bytes mode).tree.get? goal = u.tree.get? goal :=
      (Tree.put_sets hlands.ne_nil _).other (Ne.symm hne)
    refine ⟨goal, ?_, hother ▸ hgoal, ?_⟩
    · exact Tree.walk_mono (.of_eq fun q => (hlands.put_file bytes mode .lately q).symm) hwalk
    · rw [World.move_file hthere hfile hwalk hgoal hne]
      simp only [tempIn, Tree.remove_put, Tree.remove_of_vacant vacant]
  · exact .inr hfails

omit vacant in
/-- The temporary file is not the one that is to be replaced. -/
theorem modeOver_tempIn {goal : Place} (hgoal : u.Lands p goal) (content : Bytes) (mode : Nat) :
    (tempIn u p r n content mode).tree.modeOver goal = u.tree.modeOver goal := by
  have hother : (tempIn u p r n content mode).tree.get? goal = u.tree.get? goal :=
    (Tree.put_sets hlands.ne_nil _).other (hgoal.ne_temp hu r n)
  rw [Tree.modeOver, hother, Tree.modeOver]

/-- The content goes to the temporary file, which then takes the place of what the path leads to. -/
theorem always_fillAndMove (content : Bytes) (mode : Nat) :
    (fillAndMove temp p bytes).run.Leaves hazard (tempIn u p r n content mode)
      fun result v marks =>
      match result with
      | .ok () => marks = [.filled temp bytes, .moved temp p] ∧
          ∃ goal mode, u.tree.walk false u.here p = .ok goal ∧ u.tree.get? goal ≠ some .folder ∧
            (hazard.Blatant → u.Receives p goal mode) ∧
            v = { u with tree := u.tree.put goal (.file bytes mode .lately) }
      | .error _ => (marks = [] ∨ marks = [.filled temp bytes]) ∧
          ∃ content mode, v = tempIn u p r n content mode := by
  rw [fillAndMove]
  refine always_andThen.mpr (always_fill.mpr ⟨?_, fun f _ => ⟨⟨.inl rfl, _, _, rfl⟩, fun k => ?_⟩⟩)
  · rw [alter_tempIn hlands content mode bytes mode rfl]
    refine always_andThen.mpr ((always_modeFor _ p).mono ?_)
    rintro (f | mode') v marks ⟨rfl, rfl, hmode⟩
    · exact ⟨.inr rfl, _, _, rfl⟩
    refine always_andThen.mpr (always_setMode.mpr ⟨?_, fun f _ => ⟨.inr rfl, _, _, rfl⟩⟩)
    rw [alter_tempIn hlands bytes mode bytes mode' rfl]
    refine always_move.mpr ⟨?_, fun f _ => ⟨.inr rfl, _, _, rfl⟩⟩
    rcases move_tempIn hu hlands vacant mode' with ⟨goal, hwalk, hgoal, hmove⟩ | ⟨f, hmove⟩
    · rw [hmove]
      refine ⟨rfl, goal, mode', hwalk, hgoal, fun hblatant => ⟨hwalk, hgoal, fun hleaf => ?_⟩, rfl⟩
      have hlive : u.Lands p goal := ⟨hwalk, hleaf⟩
      rw [hmode hblatant mode' goal rfl (hlive.of_skeleton (hlands.put_file bytes mode .lately) rfl),
        modeOver_tempIn hu hlands hlive]
    · rw [hmove]
      exact ⟨.inr rfl, _, _, rfl⟩
  · rw [alter_tempIn hlands content mode (bytes.take k) mode rfl]
    exact ⟨.inl rfl, _, _, rfl⟩

end

/-- How a replacement ends amid mishaps. -/
def Replaced (hazard : Hazard) (w : World) (p : Path) (bytes : Bytes) (result : Except Fault Unit)
    (v : World) (marks : List Mark) : Prop :=
  match result with
  | .ok () => (∃ temp, Mark.Hidden p.name (.filled temp bytes) ∧
        marks = [.filled temp bytes, .moved temp p]) ∧
      ∃ u goal mode, w.Dug p.parent u ∧ u.tree.walk false u.here p = .ok goal ∧
        u.tree.get? goal ≠ some .folder ∧ (hazard.Blatant → w.Replaces p u goal mode) ∧
        v = { u with tree := u.tree.put goal (.file bytes mode .lately) }
  | .error _ => (∀ mark ∈ marks, mark.Hidden p.name) ∧ w.Littered p v ∧
      (hazard.Tidy → w.Dug p.parent v)

theorem always_replace (hw : w.Sound) (p : Path) (bytes : Bytes) :
    (replace p bytes).run.Leaves hazard w (Replaced hazard w p bytes) := by
  have hnothing {u : World} {f : Fault} (hdug : w.Dug p.parent u) :
      Replaced hazard w p bytes (.error f) u [] :=
    ⟨by simp, ⟨u, hdug, .inl rfl⟩, fun _ => hdug⟩
  rw [replace]
  refine always_andThen.mpr ((always_ensureFolder w p.parent).mono ?_)
  rintro (f | ⟨⟩) u marks ⟨hdug, rfl⟩
  · exact hnothing hdug
  have hu := hdug.sound hw
  refine always_andThen.mpr (always_createTemp.mpr ⟨?_, fun f _ => hnothing hdug⟩)
  rcases World.createTemp_cases hu p.parent p.name with
    ⟨n, r, temp, htemp, hlands, vacant, hcreate⟩ | ⟨f, hcreate⟩
  · have hmade : ∃ temp, (u.createTemp p.parent p.name).1 = .ok temp := ⟨temp, by rw [hcreate]⟩
    rw [hcreate]
    refine always_andThen.mpr (always_attempt.mpr
      ((always_fillAndMove hu hlands vacant [] World.privateMode).mono ?_))
    rintro (f | ⟨⟩) v marks hresult
    · obtain ⟨hmarks, content, mode, rfl⟩ := hresult
      have hhidden : ∀ mark ∈ marks, mark.Hidden p.name := by
        rcases hmarks with rfl | rfl
        · simp
        · simpa using ⟨_, n, htemp⟩
      refine always_andThen.mpr ((always_discard hlands vacant ⟨_, htemp⟩ content mode).mono ?_)
      rintro result v marks' ⟨hmarks', hv, htidy⟩
      have hhidden' : ∀ mark ∈ marks ++ marks', mark.Hidden p.name := by
        refine List.forall_mem_append.mpr ⟨hhidden, ?_⟩
        rcases hmarks' with rfl | rfl
        · simp
        · simpa using ⟨_, n, htemp⟩
      have hlittered : w.Littered p v := by
        rcases hv with rfl | rfl
        · exact ⟨v, hdug, .inl rfl⟩
        · exact ⟨u, hdug, .inr ⟨r, n, content, mode, vacant, rfl⟩⟩
      have hclean (h : hazard.Tidy) : w.Dug p.parent v := htidy h ▸ hdug
      cases result with
      | ok => simpa using ⟨hhidden', hlittered, hclean⟩
      | error => exact ⟨hhidden', hlittered, hclean⟩
    · obtain ⟨rfl, goal, mode, hwalk, hgoal, hreceives, rfl⟩ := hresult
      exact ⟨⟨temp, ⟨_, n, htemp⟩, rfl⟩, u, goal, mode, hdug, hwalk, hgoal,
        fun hblatant => ⟨hreceives hblatant, hdug, hmade⟩, rfl⟩
  · rw [hcreate]
    exact hnothing hdug

end FileTask
end ConfigSteward
