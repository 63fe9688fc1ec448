import ConfigSteward.Proofs.World.Altering
import ConfigSteward.Proofs.World.Hindered
import ConfigSteward.Proofs.World.Noon
import ConfigSteward.Proofs.World.Supplanting

/-!
# All or nothing

A replacement that breaks off leaves folders on the way and nothing else, whichever of its calls
failed, as long as it can clean up. One that ends well leaves these folders and the new file, with the
mode of what the path leads to when they are made; the temporary file beside it is never what the path
leads to, since no link points to a file of its name.
-/
namespace ConfigSteward

open Plan

namespace World

variable {w u v : World} {p : Path} {goal q : Place} {n : Nat}

/-- The low nine bits of the mode of what a path leads to, or the mode of a plain file. -/
def modeLed (w : World) (p : Path) : Nat :=
  match w.look p with
  | .ok status => status.mode % 0o1000
  | .error _ => plainMode

/-- A path leads to no temporary file of its own that no link points to. -/
theorem ne_temp_of_unpointed (hw : w.Sound) (hwalk : w.tree.walk true w.here p = .ok q)
    (hleaf : w.tree.skeleton q = none) (hfree : w.tree.pointsTo (tempName p.name n) = false)
    (r : Place) : q ≠ r ++ [tempName p.name n] := by
  rintro rfl
  have hleads := (Tree.walk_eq_ok_iff.mp hwalk).2
  rcases hleads.last_name hw.tree (Tree.get?_start hw.here p) hleaf with hlast | hpoints
  · have hname : p.parts.getLast?.getD "" = tempName p.name n := by rw [hlast, Option.getD_some]
    exact tempName_ne p.name n hname
  · cases hpoints.symm.trans hfree

/-- A look does not depend on what has a place that the path does not lead to. -/
theorem modeLed_congr (hskeleton : ∀ r, v.tree.skeleton r = u.tree.skeleton r)
    (hhere : v.here = u.here)
    (hkept : ∀ r, u.tree.walk true u.here p = .ok r → v.tree.get? r = u.tree.get? r) :
    v.modeLed p = u.modeLed p := by
  have hwalk (r : Place) : v.tree.walk true v.here p = .ok r ↔ u.tree.walk true u.here p = .ok r := by
    rw [hhere]
    exact ⟨Tree.walk_mono (.of_eq fun q => (hskeleton q).symm), Tree.walk_mono (.of_eq hskeleton)⟩
  rw [modeLed, modeLed, look, look, onNode, onNode]
  rcases hu : u.tree.walk true u.here p with cause | r
  · rcases hv : v.tree.walk true v.here p with cause' | r
    · rfl
    · cases ((hwalk r).mp hv).symm.trans hu
  · simp only [(hwalk r).mpr hu, hkept r hu]

private theorem modeLed_of_error {f : Fault} (h : w.look p = .error f) : w.modeLed p = plainMode := by
  rw [modeLed, h]

/-- What can be looked at is there. -/
theorem there_of_look {status : Status} (h : w.look p = .ok status) :
    ∃ q, w.tree.walk true w.here p = .ok q ∧ w.tree.get? q ≠ none := by
  rw [look, onNode] at h
  rcases hwalk : w.tree.walk true w.here p with cause | q
  · simp [hwalk, fault] at h
  · refine ⟨q, rfl, fun hnone => ?_⟩
    simp [hwalk, hnone, fault] at h

/-- Where the folders that are missing do not change the way of a path, the mode is that from
before. -/
theorem Dug.modeLed_eq (h : w.Dug p.parent u) (hw : w.Sound) (hfirm : w.Firm p)
    (hwalk : u.tree.walk false u.here p = .ok goal) : u.modeLed p = w.modeLed p := by
  rcases hfirm with hup | hstands
  · rcases h.fresh hw hup hwalk with rfl | hnone
    · rfl
    · have hlands : u.Lands p goal := ⟨hwalk, Tree.skeleton_of_vacant hnone⟩
      rcases hlook : w.look p with f | status
      · rw [modeLed_of_error hlook, modeLed_of_error (hlands.look_vacant hnone)]
      · obtain ⟨q, hq, hthere⟩ := there_of_look hlook
        have hq' : u.tree.walk true u.here p = .ok q := h.here_eq ▸ Tree.walk_mono h.below hq
        obtain rfl := Except.ok.inj (hlands.followed.symm.trans hq')
        exact absurd ((h.kept hthere).symm.trans hnone) hthere
  · rw [hstands.eq_of_dug hw h]

end World

namespace FileTask

variable {w u v : World} {p temp : Path} {r : Place} {n : Nat} {bytes : Bytes}

/-- The mode is that of what the path leads to. -/
theorem does_modeFor_led (w : World) (p : Path) :
    (modeFor p).run.Does (· = w) w fun result v _ =>
      v = w ∧ ∀ mode, result = .ok mode → mode = w.modeLed p := by
  rw [modeFor, exists?, does_andThen, does_leads, leadsIn, World.modeLed]
  refine ⟨rfl, ?_⟩
  rcases hlook : w.look p with f | status
  · by_cases hf : f.cause.leadsNowhere
    · simp [hf, World.plainMode]
    · simp [hf]
  · refine does_andThen.mpr (does_look.mpr ⟨rfl, ?_⟩)
    rw [hlook]
    simp

section
variable (hu : u.Sound) (hlands : u.Lands temp (r ++ [World.tempName p.name n]))
  (hfree : u.tree.pointsTo (World.tempName p.name n) = false)
include hu hlands hfree

private theorem modeLed_tempIn (content : Bytes) (mode : Nat) :
    (tempIn u p r n content mode).modeLed p = u.modeLed p := by
  refine World.modeLed_congr (hlands.put_file content mode .lately) rfl fun q hwalk => ?_
  refine (Tree.put_sets hlands.ne_nil _).other fun heq => ?_
  exact World.ne_temp_of_unpointed hu hwalk (heq ▸ hlands.leaf) hfree r heq

/-- The file that comes to the place is given the mode of what the path leads to. -/
theorem does_fillAndMove_led (vacant : u.tree.get? (r ++ [World.tempName p.name n]) = none)
    (bytes content : Bytes) (mode : Nat) :
    (fillAndMove temp p bytes).run.Does (fun _ => True) (tempIn u p r n content mode)
      fun result v _ =>
        match result with
        | .ok () => ∃ goal, u.tree.walk false u.here p = .ok goal ∧
            u.tree.get? goal ≠ some .folder ∧
            v = { u with tree := u.tree.put goal (.file bytes (u.modeLed p) .lately) }
        | .error _ => ∃ content mode, v = tempIn u p r n content mode := by
  rw [fillAndMove, does_andThen, does_fill, alter_tempIn hlands content mode bytes mode rfl]
  refine ⟨trivial, fun _ => trivial, trivial, ?_⟩
  refine does_andThen.mpr ((does_modeFor_led _ p).mono (fun _ _ => trivial) ?_)
  rintro (f | mode') v es ⟨rfl, hmode⟩
  · exact ⟨trivial, _, _, rfl⟩
  obtain rfl := (hmode mode' rfl).trans (modeLed_tempIn hu hlands hfree bytes mode)
  refine does_andThen.mpr (does_setMode.mpr ?_)
  rw [alter_tempIn hlands bytes mode bytes (u.modeLed p) rfl]
  refine ⟨trivial, trivial, does_move.mpr ⟨trivial, trivial, ?_⟩⟩
  rcases move_tempIn hu hlands vacant (u.modeLed p) with
    ⟨goal, hwalk, hgoal, hmove⟩ | ⟨f, hmove⟩
  · rw [hmove]
    exact ⟨goal, hwalk, hgoal, rfl⟩
  · rw [hmove]
    exact ⟨_, _, rfl⟩

end

/-- The part of a replacement up to its clean-up: the temporary file and what came of filling and
moving it. -/
def stage (p : Path) (bytes : Bytes) : FileTask (Path × Except Fault Unit) := do
  ensureFolder p.parent
  let temp ← createTemp p.parent p.name
  return (temp, ← attempt (fillAndMove temp p bytes))

/-- The clean-up of a replacement. -/
def settle : Path × Except Fault Unit → FileTask Unit
  | (_, .ok ()) => return ()
  | (temp, .error f) => do
    discard temp
    throw f

theorem replace_eq_settle (p : Path) (bytes : Bytes) : replace p bytes = stage p bytes >>= settle := by
  rw [replace, stage]
  simp only [LawfulMonad.bind_assoc, LawfulMonad.pure_bind]
  refine bind_congr fun _ => bind_congr fun temp => bind_congr fun result => ?_
  cases result <;> rfl

/-- What a replacement leaves: folders and the new file, or folders alone. -/
def Leaves (w : World) (p : Path) (bytes : Bytes) (modes : World → Nat → Prop)
    (result : Except Fault Unit) (v : World) : Prop :=
  match result with
  | .ok () => ∃ u goal mode, w.Dug p.parent u ∧ u.tree.walk false u.here p = .ok goal ∧
      u.tree.get? goal ≠ some .folder ∧ modes u mode ∧
      v = { u with tree := u.tree.put goal (.file bytes mode .lately) }
  | .error _ => w.Dug p.parent v

/-- What is staged leaves that once it is settled. -/
def Settles (w : World) (p : Path) (bytes : Bytes) (modes : World → Nat → Prop)
    (result : Except Fault (Path × Except Fault Unit)) (v : World) : Prop :=
  match result with
  | .ok staged => (settle staged).run.Does (fun _ => True) v fun result v _ =>
      Leaves w p bytes modes result v
  | .error _ => w.Dug p.parent v

variable {modes : World → Nat → Prop}

private theorem settles_moved {goal : Place} {mode : Nat} (hdug : w.Dug p.parent u)
    (hwalk : u.tree.walk false u.here p = .ok goal) (hgoal : u.tree.get? goal ≠ some .folder)
    (hmode : modes u mode) : Settles w p bytes modes (.ok (temp, .ok ()))
      { u with tree := u.tree.put goal (.file bytes mode .lately) } :=
  does_pure.mpr ⟨trivial, u, goal, mode, hdug, hwalk, hgoal, hmode, rfl⟩

private theorem settles_broken (hdug : w.Dug p.parent u)
    (hlands : u.Lands temp (r ++ [World.tempName p.name n]))
    (vacant : u.tree.get? (r ++ [World.tempName p.name n]) = none) (f : Fault) (content : Bytes)
    (mode : Nat) :
    Settles w p bytes modes (.ok (temp, .error f)) (tempIn u p r n content mode) := by
  refine does_andThen.mpr ((does_discard hlands vacant content mode).mono (fun _ _ => trivial) ?_)
  rintro result v es ⟨-, rfl, rfl⟩
  exact does_throw.mpr ⟨trivial, hdug⟩

/-- Without mishaps the new file has the mode of what the path leads to. -/
theorem does_stage (hw : w.Sound) (p : Path) (bytes : Bytes) :
    (stage p bytes).run.Does (fun _ => True) w fun result v _ =>
      Settles w p bytes (fun u mode => mode = u.modeLed p) result v := by
  rw [stage]
  refine does_andThen.mpr ((does_ensureFolder w p.parent).mono (fun _ _ => trivial) ?_)
  rintro (f | ⟨⟩) u es ⟨-, hdug, -⟩
  · exact ⟨trivial, hdug⟩
  have hu := hdug.sound hw
  refine does_andThen.mpr (does_createTemp.mpr ⟨trivial, trivial, ?_⟩)
  rcases World.createTemp_cases hu p.parent p.name with
    ⟨n, r, temp, htemp, hlands, vacant, hcreate⟩ | ⟨f, hcreate⟩
  · have hfree : u.tree.pointsTo (World.tempName p.name n) = false := by
      have hunpointed := World.createTemp_unpointed hu hcreate
      rwa [htemp, Path.name_child] at hunpointed
    rw [hcreate]
    refine does_andThen.mpr (does_attempt.mpr ((does_fillAndMove_led hu hlands hfree vacant bytes []
      World.privateMode).mono (fun _ _ => trivial) ?_))
    rintro (f | ⟨⟩) v es hresult
    · obtain ⟨content, mode, rfl⟩ := hresult
      exact does_pure.mpr ⟨trivial, settles_broken hdug hlands vacant f content mode⟩
    · obtain ⟨goal, hwalk, hgoal, rfl⟩ := hresult
      exact does_pure.mpr ⟨trivial, settles_moved hdug hwalk hgoal rfl⟩
  · rw [hcreate]
    exact ⟨trivial, hdug⟩

/-- However the calls fare until then, cleaning up leaves all or nothing. -/
theorem always_stage (hw : w.Sound) (p : Path) (bytes : Bytes) :
    (stage p bytes).run.Always w fun result v _ =>
      Settles w p bytes (fun _ _ => True) result v := by
  rw [stage]
  refine always_andThen.mpr ((always_ensureFolder w p.parent).mono ?_)
  rintro (f | ⟨⟩) u marks ⟨hdug, -⟩
  · exact hdug
  have hu := hdug.sound hw
  refine always_andThen.mpr (always_createTemp.mpr ⟨?_, fun f _ => hdug⟩)
  rcases World.createTemp_cases hu p.parent p.name with
    ⟨n, r, temp, -, hlands, vacant, hcreate⟩ | ⟨f, hcreate⟩
  · rw [hcreate]
    refine always_andThen.mpr (always_attempt.mpr
      ((always_fillAndMove hu hlands vacant [] World.privateMode).mono ?_))
    rintro (f | ⟨⟩) v marks hresult
    · obtain ⟨-, content, mode, rfl⟩ := hresult
      exact settles_broken hdug hlands vacant f content mode
    · obtain ⟨-, goal, mode, hwalk, hgoal, -, rfl⟩ := hresult
      exact settles_moved hdug hwalk hgoal trivial
  · rw [hcreate]
    exact hdug

theorem does_replace_leaves (hw : w.Sound) (p : Path) (bytes : Bytes) :
    (replace p bytes).run.Does (fun _ => True) w fun result v _ =>
      Leaves w p bytes (fun u mode => mode = u.modeLed p) result v := by
  rw [replace_eq_settle]
  refine does_andThen.mpr ((does_stage hw p bytes).mono (fun _ _ => trivial) ?_)
  rintro (f | staged) v es hsettles
  · exact ⟨trivial, hsettles⟩
  · exact hsettles

/-- A replacement that fails leaves nothing but folders on the way. One that ends well leaves these and
the file with its content, at the place that the path names once they are made. Its mode is that of
what the path leads to then, which is what it led to before unless missing folders change its way;
the path leads to the file, unless it goes through the very link whose place the file takes. Whichever
calls fail before the clean-up, all or nothing is done. -/
theorem replaces_all_or_nothing (hw : w.Sound) (p : Path) (bytes : Bytes) :
    (replace p bytes).run.Does (fun _ => True) w (fun result v _ =>
      (∃ f, result = .error f) ∧ w.Dug p.parent v ∧
        (∀ place temp, w.Lands p place → (w.createTemp p.parent p.name).1 ≠ .ok temp) ∨
      result = .ok () ∧ ∃ u goal, w.Dug p.parent u ∧ u.tree.walk false u.here p = .ok goal ∧
        u.tree.get? goal ≠ some .folder ∧
        v = { u with tree := u.tree.put goal (.file bytes (u.modeLed p) .lately) } ∧
        (w.Firm p → u.modeLed p = w.modeLed p) ∧
        (u.StandsWithout goal p.parent → v.Lands p goal)) ∧
    replace p bytes = stage p bytes >>= settle ∧
    (stage p bytes).run.Always w fun result v _ =>
      Settles w p bytes (fun _ _ => True) result v := by
  refine ⟨?_, replace_eq_settle p bytes, always_stage hw p bytes⟩
  refine ((does_replace hw p bytes).and (does_replace_leaves hw p bytes)).mono (fun _ _ => trivial) ?_
  rintro (f | ⟨⟩) v es ⟨⟨-, hfails⟩, hleaves⟩
  · exact .inl ⟨⟨f, rfl⟩, hfails⟩
  · obtain ⟨u, goal, mode, hdug, hwalk, hgoal, rfl, rfl⟩ := hleaves
    refine .inr ⟨rfl, u, goal, hdug, hwalk, hgoal, rfl, fun hfirm => hdug.modeLed_eq hw hfirm hwalk, ?_⟩
    exact fun hwithout => hwithout.lands_put (hdug.sound hw) hwalk hgoal bytes _ .lately

/-- A file of its owner alone. -/
def owned : World :=
  .atNoon ⟨[(["f"], .file [111] 0o600 .lately)]⟩ (.ok .well)

theorem replaces_all_or_nothing_owned : owned.Sound ∧
    ∃ v, (replace ⟨.one, ["f"]⟩ [110]).run.run owned = (.ok (), v) ∧
      v.Lands ⟨.one, ["f"]⟩ ["f"] ∧ v.tree.get? ["f"] = some (.file [110] 0o600 .lately) := by
  have hw : owned.Sound := ⟨Tree.sound_of_entries (by decide), rfl⟩
  have hlands : owned.Lands ⟨.one, ["f"]⟩ ["f"] := ⟨by cbv, rfl⟩
  have hparent := hlands.stands_parent hw
  have htemp : (owned.createTemp ⟨.one, []⟩ "f").1 = .ok ⟨.one, [".f.00000000.tmp"]⟩ := by cbv
  have hmode : owned.modeLed ⟨.one, ["f"]⟩ = 0o600 := by
    rw [World.modeLed, hlands.look_file rfl]
    rfl
  refine ⟨hw, ?_⟩
  obtain ⟨-, -, hfails⟩ | ⟨hr, u, goal, hdug, hwalk, -, hv, -, hkeeps⟩ :=
    (replaces_all_or_nothing hw ⟨.one, ["f"]⟩ [110]).1.ends
  · exact absurd htemp (hfails ["f"] _ hlands)
  · obtain rfl := hparent.eq_of_dug hw hdug
    obtain rfl := Except.ok.inj (hwalk.symm.trans hlands.walk)
    refine ⟨_, Prod.ext hr rfl, hkeeps (hparent.without hlands.leaf), ?_⟩
    refine (congrArg (fun v => v.tree.get? ["f"]) hv).trans ?_
    rw [hmode]
    rfl

/-- A folder that was missing on the way is made, and the file keeps its mode. -/
theorem run_replace_owned :
    (replace ⟨.one, ["a", "..", "f"]⟩ [110]).run.run owned = (.ok (), { owned with
      tree := ⟨[(["f"], .file [110] 0o600 .lately), (["a"], .folder)]⟩ }) := by cbv

/-- The file takes the place of the link. -/
theorem run_replace_knotted :
    (replace ⟨.one, ["d", "l", "l"]⟩ [110]).run.run World.knotted = (.ok (), { World.knotted with
      tree := ⟨[(["d", "l"], .file [110] 0o755 .lately), (["b"], .folder), (["d"], .folder)]⟩ }) := by cbv

/-- A path that leads to nothing, since a folder on it is missing, leads to a file once the folder is
made, and the new file takes its mode. A path that goes through a link and ends at it is lost. -/
theorem replaces_past_missing_folder_and_own_link :
    ((∃ f, owned.look ⟨.one, ["a", "..", "f"]⟩ = .error f ∧ f.cause = .noEntry) ∧
      ∃ v, (replace ⟨.one, ["a", "..", "f"]⟩ [110]).run.run owned = (.ok (), v) ∧
        v.tree.get? ["f"] = some (.file [110] 0o600 .lately)) ∧
    ∃ v, (replace ⟨.one, ["d", "l", "l"]⟩ [110]).run.run World.knotted = (.ok (), v) ∧
      v.read ⟨.one, ["d", "l", "l"]⟩ ≠ .ok [110] := by
  have hread : World.read { World.knotted with
      tree := ⟨[(["d", "l"], .file [110] 0o755 .lately), (["b"], .folder), (["d"], .folder)]⟩ }
        ⟨.one, ["d", "l", "l"]⟩ = .error ⟨.notDirectory, "/d/l/l", none⟩ := by cbv
  refine ⟨⟨⟨⟨.noEntry, "/a/../f", none⟩, by cbv, rfl⟩, _, run_replace_owned, by decide⟩, _,
    run_replace_knotted, ?_⟩
  intro hok
  cases hread.symm.trans hok

end FileTask
end ConfigSteward
