import ConfigSteward.Proofs.World.Temporary

/-!
# Replacing a file

In the middle of `replace` the tree differs from the one before by folders on the way and perhaps by
one hidden temporary file, or it has the new content in full. A replacement that fails leaves nothing
but folders behind, and on a path that lands it fails only if no temporary file can be made.
-/
namespace ConfigSteward

open Plan

/-- The mode of a file that takes the place of what is there. -/
def Tree.modeOver (t : Tree) (q : Place) : Nat :=
  match t.get? q with
  | some (.file _ mode _) => mode % 0o1000
  | _ => World.plainMode

theorem Tree.modeOver_of_file {t : Tree} {q : Place} {bytes : Bytes} {mode : Nat}
    {changed : Changed} (h : t.get? q = some (.file bytes mode changed)) :
    t.modeOver q = mode % 0o1000 := by
  rw [modeOver, h]

namespace World

variable {w u v : World} {p : Path} {place goal : Place} {bytes : Bytes} {mode : Nat}

/-- A file moved to the path comes to the place `goal`, and is given the mode of a file there. -/
structure Receives (u : World) (p : Path) (goal : Place) (mode : Nat) : Prop where
  walk : u.tree.walk false u.here p = .ok goal
  noFolder : u.tree.get? goal ≠ some .folder
  mode : u.tree.skeleton goal = none → mode = u.tree.modeOver goal

/-- A replacement in `w` made folders, which led to `u`, and then set the place `goal`. -/
structure Replaces (w : World) (p : Path) (u : World) (goal : Place) (mode : Nat) : Prop extends
    Receives u p goal mode where
  dug : w.Dug p.parent u
  temp : ∃ temp, (u.createTemp p.parent p.name).1 = .ok temp

/-- The worlds in the middle of replacing a file. -/
inductive Replacing (w : World) (p : Path) (bytes : Bytes) : World → Prop where
  | dug {u : World} (h : w.Dug p.parent u) : Replacing w p bytes u
  | temp {u : World} {r : Place} {n : Nat} {content : Bytes} {mode : Nat} (h : w.Dug p.parent u)
      (vacant : u.tree.get? (r ++ [tempName p.name n]) = none) :
      Replacing w p bytes { u with
        tree := u.tree.put (r ++ [tempName p.name n]) (.file content mode .lately) }
  | done {u : World} {goal : Place} {mode : Nat} (h : w.Replaces p u goal mode) :
      Replacing w p bytes { u with tree := u.tree.put goal (.file bytes mode .lately) }

theorem Lands.ne_temp (h : w.Lands p place) (hw : w.Sound) (r : Place) (n : Nat) :
    place ≠ r ++ [tempName p.name n] := by
  rintro rfl
  obtain ⟨r', -, -, -, heq⟩ := h.split hw
  exact tempName_ne p.name n (List.append_inj_right' heq rfl |> List.singleton_inj.mp).symm

theorem Dug.sound (h : w.Dug p u) (hw : w.Sound) : u.Sound := by
  obtain ⟨t, ht, rfl⟩ := h
  exact ⟨ht.sound hw.tree (Tree.get?_start hw.here p), ht.grows.folder hw.here⟩

/-- A file at a vacant place or in the place of a file is not seen by any walk. -/
theorem Lands.put_file (h : w.Lands p place) (content : Bytes) (mode : Nat) (changed : Changed)
    (q : Place) : (w.tree.put place (.file content mode changed)).skeleton q = w.tree.skeleton q :=
  (Tree.put_sets h.ne_nil _).skeleton_eq h.leaf
    (Tree.skeleton_of_file (Tree.put_sets h.ne_nil _).self) q

theorem Lands.at_put (h : w.Lands p place) (content : Bytes) (mode : Nat) (changed : Changed) :
    World.Lands { w with tree := w.tree.put place (.file content mode changed) } p place :=
  h.of_skeleton (h.put_file content mode changed) rfl

theorem Lands.get_put (h : w.Lands p place) (node : Node) :
    (w.tree.put place node).get? place = some node := (Tree.put_sets h.ne_nil node).self

theorem Lands.put_sound (h : w.Lands p place) (hw : w.Sound) (content : Bytes) (mode : Nat)
    (changed : Changed) :
    World.Sound { w with tree := w.tree.put place (.file content mode changed) } := by
  have hset := Tree.put_sets (t := w.tree) h.ne_nil (.file content mode changed)
  obtain ⟨r, -, hr, -, hplace⟩ := h.split hw
  refine ⟨hset.sound hw.tree h.ne_folder (by rw [hplace, List.dropLast_concat, hr]), ?_⟩
  exact (Tree.Below.of_eq (h.put_file content mode changed)).folder hw.here

end World

namespace FileTask

variable {w u : World} {p temp : Path} {place : Place} {bytes : Bytes}

theorem does_modeFor (w : World) (p : Path) :
    (modeFor p).run.Does (· = w) w fun r v es =>
      v = w ∧ es = [] ∧ ∀ place, w.Lands p place → r = .ok (w.tree.modeOver place) := by
  rw [modeFor, exists?, does_andThen, does_leads]
  refine ⟨rfl, ?_⟩
  rcases hleads : leadsIn w p (fun _ => true) with f | found
  · refine ⟨rfl, rfl, rfl, fun place hplace => ?_⟩
    rcases Tree.skeleton_eq_none_iff.mp hplace.leaf with hnone | ⟨_, _, _, hfile⟩
    · simp [leadsIn, hplace.look_vacant hnone, World.fault, Cause.leadsNowhere] at hleads
    · simp [leadsIn, hplace.look_file hfile] at hleads
  · cases found
    · refine does_pure.mpr ⟨rfl, rfl, rfl, fun place hplace => ?_⟩
      rcases Tree.skeleton_eq_none_iff.mp hplace.leaf with hnone | ⟨_, _, _, hfile⟩
      · simp [Tree.modeOver, hnone, World.plainMode]
      · simp [leadsIn, hplace.look_file hfile] at hleads
    · simp only [if_true]
      rw [does_andThen, does_look]
      refine ⟨rfl, ?_⟩
      rcases hlook : w.look p with f | status
      · refine ⟨rfl, rfl, rfl, fun place hplace => ?_⟩
        by_cases hf : f.cause.leadsNowhere
        · simp [leadsIn, hlook, hf] at hleads
        · simp [leadsIn, hlook, hf] at hleads
      · refine does_pure.mpr ⟨rfl, rfl, rfl, fun place hplace => ?_⟩
        rcases Tree.skeleton_eq_none_iff.mp hplace.leaf with hnone | ⟨_, _, _, hfile⟩
        · rw [hplace.look_vacant hnone] at hlook
          cases hlook
        · rw [hplace.look_file hfile] at hlook
          cases hlook
          simp [Tree.modeOver, hfile]

section
variable {r : Place} {n : Nat}

/-- The world with a temporary file for `p` in the folder `r`. -/
def tempIn (u : World) (p : Path) (r : Place) (n : Nat) (content : Bytes) (mode : Nat) : World :=
  { u with tree := u.tree.put (r ++ [World.tempName p.name n]) (.file content mode .lately) }

theorem put_tempIn (content : Bytes) (mode : Nat) (content' : Bytes) (mode' : Nat) :
    { tempIn u p r n content mode with
      tree := (tempIn u p r n content mode).tree.put (r ++ [World.tempName p.name n])
        (.file content' mode' .lately) } = tempIn u p r n content' mode' := by
  simp only [tempIn, Tree.put_put]

/-- The content goes to the temporary file, which then takes the place of what the path leads to. -/
theorem does_fillAndMove (hu : u.Sound)
    (hlands : u.Lands temp (r ++ [World.tempName p.name n]))
    (vacant : u.tree.get? (r ++ [World.tempName p.name n]) = none) (bytes content : Bytes)
    (mode : Nat) :
    (fillAndMove temp p bytes).run.Does
      (fun v => (∃ content mode, v = tempIn u p r n content mode) ∨
        ∃ goal mode, u.Receives p goal mode ∧
          v = { u with tree := u.tree.put goal (.file bytes mode .lately) })
      (tempIn u p r n content mode)
      fun result v es => es = [] ∧
        match result with
        | .ok () => ∃ goal mode, u.Receives p goal mode ∧
            v = { u with tree := u.tree.put goal (.file bytes mode .lately) }
        | .error _ => (∃ content mode, v = tempIn u p r n content mode) ∧
            ∀ place, ¬ u.Lands p place := by
  have hthere (content : Bytes) (mode : Nat) : (tempIn u p r n content mode).Lands temp
      (r ++ [World.tempName p.name n]) := hlands.at_put content mode .lately
  have hfile (content : Bytes) (mode : Nat) : (tempIn u p r n content mode).tree.get?
      (r ++ [World.tempName p.name n]) = some (.file content mode .lately) := hlands.get_put _
  have hsound (content : Bytes) (mode : Nat) : (tempIn u p r n content mode).Sound :=
    hlands.put_sound hu content mode .lately
  have hother (content : Bytes) (mode : Nat) {q : Place}
      (hq : q ≠ r ++ [World.tempName p.name n]) :
      (tempIn u p r n content mode).tree.get? q = u.tree.get? q :=
    (Tree.put_sets hlands.ne_nil _).other hq
  have hskeleton (content : Bytes) (mode : Nat) (q : Place) :
      (tempIn u p r n content mode).tree.skeleton q = u.tree.skeleton q :=
    hlands.put_file content mode .lately q
  have hlands_temp (content : Bytes) (mode : Nat) {q : Place} (hq : u.Lands p q) :
      (tempIn u p r n content mode).Lands p q := hq.of_skeleton (hskeleton content mode) rfl
  have hmoved (mode : Nat) (goal : Place) : { tempIn u p r n bytes mode with
        tree := ((tempIn u p r n bytes mode).tree.remove (r ++ [World.tempName p.name n])).put goal
          (.file bytes mode .lately) }
      = { u with tree := u.tree.put goal (.file bytes mode .lately) } := by
    simp only [tempIn, Tree.remove_put, Tree.remove_of_vacant vacant]
  rw [fillAndMove, does_andThen, does_fill]
  simp only [(hthere content mode).alter_file (hfile content mode), put_tempIn]
  refine ⟨.inl ⟨_, _, rfl⟩, fun k => .inl ⟨_, _, rfl⟩, .inl ⟨_, _, rfl⟩, ?_⟩
  refine does_andThen.mpr ((does_modeFor _ p).mono (fun v hv => .inl ⟨_, _, hv⟩) ?_)
  rintro result v es ⟨rfl, rfl, hmode⟩
  rcases result with f | mode'
  · refine ⟨.inl ⟨_, _, rfl⟩, rfl, ⟨_, _, rfl⟩, fun place hplace => ?_⟩
    cases hmode place (hlands_temp _ _ hplace)
  refine does_andThen.mpr (does_setMode.mpr ?_)
  simp only [(hthere bytes mode).alter_file (hfile bytes mode), put_tempIn]
  refine ⟨.inl ⟨_, _, rfl⟩, .inl ⟨_, _, rfl⟩, does_move.mpr ?_⟩
  rcases World.move_cases (hthere bytes mode') (hfile bytes mode') p with
    ⟨goal, hwalk, hgoal⟩ | ⟨f, hmove⟩
  · have hne : r ++ [World.tempName p.name n] ≠ goal := by
      rintro rfl
      have hleaf := Tree.skeleton_of_file (hfile bytes mode')
      exact World.Lands.ne_temp ⟨hwalk, hleaf⟩ (hsound bytes mode') r n rfl
    have hreceives : u.Receives p goal mode' := by
      refine ⟨Tree.walk_mono (.of_eq fun q => (hskeleton bytes mode' q).symm) hwalk, ?_, ?_⟩
      · rwa [← hother bytes mode' (Ne.symm hne)]
      · intro hleaf
        have hwalk' : (tempIn u p r n bytes mode).tree.walk false u.here p = .ok goal :=
          Tree.walk_mono (.of_eq fun q => by rw [hskeleton, hskeleton]) hwalk
        have hok := hmode goal ⟨hwalk', by rw [hskeleton, hleaf]⟩
        simpa [Tree.modeOver, hother bytes mode (Ne.symm hne)] using Except.ok.inj hok
    rw [World.move_file (hthere bytes mode') (hfile bytes mode') hwalk hgoal hne, hmoved]
    exact ⟨.inl ⟨_, _, rfl⟩, .inr ⟨goal, mode', hreceives, rfl⟩, rfl, goal, mode', hreceives, rfl⟩
  · rw [hmove]
    refine ⟨.inl ⟨_, _, rfl⟩, .inl ⟨_, _, rfl⟩, rfl, ⟨_, _, rfl⟩, fun place hplace => ?_⟩
    have hplace' := hlands_temp bytes mode' hplace
    rw [World.move_file (hthere bytes mode') (hfile bytes mode') hplace'.walk hplace'.ne_folder
      (Ne.symm (hplace.ne_temp hu r n))] at hmove
    cases hmove

theorem does_discard (hlands : u.Lands temp (r ++ [World.tempName p.name n]))
    (vacant : u.tree.get? (r ++ [World.tempName p.name n]) = none) (content : Bytes) (mode : Nat) :
    (discard temp).run.Does (fun v => v = tempIn u p r n content mode ∨ v = u)
      (tempIn u p r n content mode) fun result v es => es = [] ∧ result = .ok () ∧ v = u := by
  have hthere : (tempIn u p r n content mode).Lands temp (r ++ [World.tempName p.name n]) :=
    hlands.at_put content mode .lately
  have hfile : (tempIn u p r n content mode).tree.get? (r ++ [World.tempName p.name n])
      = some (.file content mode .lately) := hlands.get_put _
  have hgone : { tempIn u p r n content mode with
      tree := (tempIn u p r n content mode).tree.remove (r ++ [World.tempName p.name n]) } = u := by
    simp only [tempIn, Tree.remove_put, Tree.remove_of_vacant vacant]
  rw [discard, does_andThen, does_attempt, does_look, hthere.look_file hfile]
  refine ⟨.inl rfl, does_unlink.mpr ?_⟩
  rw [hthere.unlink_file hfile, hgone]
  exact ⟨.inl rfl, .inr rfl, rfl, rfl, rfl⟩

end

/-- What replacing a file does. -/
def ReplacesFile (w : World) (p : Path) (bytes : Bytes) (result : Except Fault Unit) (v : World)
    (es : List Execution) : Prop :=
  es = [] ∧
    match result with
    | .ok () => ∃ u goal mode, w.Replaces p u goal mode ∧
        v = { u with tree := u.tree.put goal (.file bytes mode .lately) }
    | .error _ => w.Dug p.parent v ∧
        ∀ place temp, w.Lands p place → (w.createTemp p.parent p.name).1 ≠ .ok temp

theorem does_replace (hw : w.Sound) (p : Path) (bytes : Bytes) :
    (replace p bytes).run.Does (w.Replacing p bytes) w (ReplacesFile w p bytes) := by
  have hensure : (ensureFolder p.parent).run.Does (w.Dug p.parent) w fun result v es =>
      es = [] ∧ w.Dug p.parent v ∧ (w.Stands p.parent → result = .ok () ∧ v = w) := by
    by_cases hstands : w.Stands p.parent
    · refine (does_ensureFolder_stands hstands).mono ?_ ?_
      · rintro v rfl
        exact .refl _ _
      · rintro result v es ⟨rfl, rfl, rfl⟩
        exact ⟨rfl, .refl _ _, fun _ => ⟨rfl, rfl⟩⟩
    · refine (does_ensureFolder w p.parent).mono (fun _ hv => hv) ?_
      rintro result v es ⟨rfl, hdug, -⟩
      exact ⟨rfl, hdug, fun h => absurd h hstands⟩
  rw [replace]
  refine does_andThen.mpr (hensure.mono (fun v hv => .dug hv) ?_)
  rintro result u es ⟨rfl, hdug, hstands⟩
  have hstands' {place : Place} (hplace : w.Lands p place) := hstands (hplace.stands_parent hw)
  rcases result with f | ⟨⟩
  · refine ⟨.dug hdug, rfl, hdug, fun place temp hplace => ?_⟩
    cases (hstands' hplace).1
  have hu := hdug.sound hw
  refine does_andThen.mpr (does_createTemp.mpr ?_)
  rcases World.createTemp_cases hu p.parent p.name with
    ⟨n, r, temp, -, hlands, vacant, hcreate⟩ | ⟨f, hcreate⟩
  · have htemp : ∃ temp, (u.createTemp p.parent p.name).1 = .ok temp := ⟨temp, by rw [hcreate]⟩
    rw [hcreate]
    refine ⟨.dug hdug, .temp hdug vacant, ?_⟩
    have hfill := does_fillAndMove hu hlands vacant bytes [] World.privateMode
    refine does_andThen.mpr (does_attempt.mpr (hfill.mono ?_ ?_))
    · rintro v (⟨content, mode, rfl⟩ | ⟨goal, mode, hreceives, rfl⟩)
      · exact .temp hdug vacant
      · exact .done ⟨hreceives, hdug, htemp⟩
    · rintro (f | ⟨⟩) v es ⟨rfl, hresult⟩
      · obtain ⟨⟨content, mode, rfl⟩, hnowhere⟩ := hresult
        refine does_andThen.mpr ((does_discard hlands vacant content mode).mono ?_ ?_)
        · rintro v (rfl | rfl)
          · exact .temp hdug vacant
          · exact .dug hdug
        · rintro result v es ⟨rfl, rfl, rfl⟩
          refine does_throw.mpr ⟨.dug hdug, rfl, hdug, fun place temp hplace => ?_⟩
          exact absurd ((hstands' hplace).2 ▸ hplace) (hnowhere place)
      · obtain ⟨goal, mode, hreceives, rfl⟩ := hresult
        exact does_pure.mpr ⟨.done ⟨hreceives, hdug, htemp⟩, rfl, u, goal, mode,
          ⟨hreceives, hdug, htemp⟩, rfl⟩
  · rw [hcreate]
    refine ⟨.dug hdug, .dug hdug, .dug hdug, rfl, hdug, fun place temp hplace => ?_⟩
    rw [← (hstands' hplace).2, hcreate]
    simp

/-- Where the path leads to a folder there is no replacing, and nothing changes. -/
theorem does_replace_folder (hw : w.Sound) (hstands : w.Stands p.parent)
    (hwalk : w.tree.walk false w.here p = .ok place) (hfolder : w.tree.get? place = some .folder)
    (bytes : Bytes) :
    (replace p bytes).run.Does (fun _ => True) w fun r v _ => (∃ f, r = .error f) ∧ v = w := by
  refine (does_replace hw p bytes).mono (fun _ _ => trivial) ?_
  rintro (f | ⟨⟩) v es ⟨-, hresult⟩
  · exact ⟨⟨f, rfl⟩, hstands.eq_of_dug hw hresult.1⟩
  · obtain ⟨u, goal, mode, hreplaces, -⟩ := hresult
    obtain rfl := hstands.eq_of_dug hw hreplaces.dug
    obtain rfl := Except.ok.inj (hwalk.symm.trans hreplaces.walk)
    exact absurd hfolder hreplaces.noFolder

end FileTask
end ConfigSteward
