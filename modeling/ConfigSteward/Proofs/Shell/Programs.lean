import ConfigSteward.Proofs.Files.Edits
import ConfigSteward.Shell.Running

/-!
# What programs do to the tree

A program that runs no script edits the tree that it finds and does nothing else to it. So do the parts
of the shell that open files.
-/
namespace ConfigSteward.Shell

variable {s s' : State} {place : Place} {path : String} {follow : Bool}

theorem extendFile_edits (t : Tree) (place : Place) (bytes : Bytes) :
    t.Edits (extendFile t place bytes) := by
  rw [extendFile]
  split
  · next old mode changed hget =>
    refine .single fun ht => .write (Tree.skeleton_of_file hget) (ht _ _ ?_ hget) ..
    exact Tree.ne_nil_of_leaf (Tree.skeleton_of_file hget)
  · exact .refl t

namespace State

theorem write_edits (s : State) (sink : Sink) (bytes : Bytes) :
    s.tree.Edits (s.write sink bytes).tree := by
  cases sink with
  | file place => exact extendFile_edits s.tree place bytes
  | _ => exact .refl _

theorem out_edits (s : State) (bytes : Bytes) : s.tree.Edits (s.out bytes).tree :=
  s.write_edits _ _

theorem err_edits (s : State) (text : String) : s.tree.Edits (s.err text).tree :=
  s.write_edits _ _

@[simp] theorem tree_set (s : State) (name value : String) : (s.set name value).tree = s.tree := rfl

@[simp] theorem tree_export (s : State) (arg : String) : (s.export arg).tree = s.tree := by
  rw [State.export]
  split <;> rfl

theorem foldl_edits {α : Type} {f : State → α → State}
    (hf : ∀ (s : State) a, s.tree.Edits (f s a).tree) (s : State) (as : List α) :
    s.tree.Edits (as.foldl f s).tree := by
  induction as generalizing s with
  | nil => exact .refl _
  | cons a as ih => exact (hf s a).trans (ih _)

/-- What a path names in a sound tree is a folder or lies in one. -/
theorem walk_ends (hs : s.tree.Sound) (h : s.walk follow path = .ok place) :
    s.tree.get? place = some .folder ∨
      place ≠ [] ∧ s.tree.get? place.dropLast = some .folder := by
  rw [walk] at h
  split at h
  · next hstart =>
    rw [Tree.walk] at h
    split at h
    · cases h
    · exact (Tree.leads_of_walkFrom h).ends hs (of_decide_eq_true hstart)
  · cases h

/-- What a path names in a sound tree lies in a folder if it is none itself. -/
theorem walk_parent (hs : s.tree.Sound) (h : s.walk follow path = .ok place)
    (hplace : s.tree.get? place ≠ some .folder) : s.tree.get? place.dropLast = some .folder := by
  rcases walk_ends hs h with hfolder | ⟨-, hparent⟩
  · exact absurd hfolder hplace
  · exact hparent

end State

@[simp] theorem tree_finish (s : State) (status : Nat) : (finish s status).1.tree = s.tree := rfl

@[simp] theorem tree_lead (s : State) (descriptor : Nat) (sink : Sink) :
    (lead s descriptor sink).tree = s.tree := by
  rw [lead]
  split
  · rfl
  · split <;> rfl

/-- A file that a program writes anew where a path leads. -/
private theorem put_edits (h : s.walk follow path = .ok place)
    (hleaf : s.tree.skeleton place = none) (bytes : Bytes) (mode : Nat) (changed : Changed) :
    s.tree.Edits (s.tree.put place (.file bytes mode changed)) := by
  refine .single fun hs => .write hleaf (State.walk_parent hs h fun hfolder => ?_) ..
  rw [Tree.skeleton_eq_folder_iff.mpr hfolder] at hleaf
  cases hleaf

theorem openFile_edits {kept : Bool} {target : String} {sink : Sink}
    (h : openFile s kept target = .ok (sink, s')) : s.tree.Edits s'.tree := by
  rw [openFile] at h
  cases hwalk : s.walk true target with
  | error cause => simp [hwalk, bind, Except.bind] at h
  | ok place =>
    simp only [hwalk, bind, Except.bind] at h
    split at h
    · next hget =>
      split at h
      · cases h
        exact .refl _
      · cases h
        exact put_edits hwalk (Tree.skeleton_of_file hget) _ _ _
    · cases h
    · next hget =>
      cases h
      exact put_edits hwalk (Tree.skeleton_of_vacant hget) _ _ _

theorem sinkOf_edits {kind : RedirectKind} {target : String} {sink : Sink}
    (h : sinkOf s kind target = .ok (sink, s')) : s.tree.Edits s'.tree := by
  unfold sinkOf at h
  split at h
  all_goals first
    | cases h; exact .refl _
    | exact openFile_edits h

theorem openTarget_edits {r : Redirect} {target : String} (h : openTarget s r target = .ok s') :
    s.tree.Edits s'.tree := by
  rw [openTarget] at h
  split at h
  · split at h
    · cases h
      exact .refl _
    · split at h
      · cases h
        exact .refl _
      · cases h
  · split at h
    · next hsink =>
      cases h
      rw [tree_lead]
      exact sinkOf_edits hsink
    · cases h

/-! ## Programs without a script -/

theorem cat_edits (s : State) (files : List String) : s.tree.Edits (cat s files).1.tree := by
  induction files generalizing s with
  | nil => exact .refl _
  | cons file files ih =>
    rw [cat]
    split
    · exact (s.out_edits _).trans (ih _)
    · exact (s.err_edits _).trans (ih _)

theorem forFiles_edits {deal : State → String → Except Cause Tree} {complain : String → Cause → String}
    (hdeal : ∀ s file tree, deal s file = .ok tree → s.tree.Edits tree) (s : State)
    (files : List String) : s.tree.Edits (forFiles deal complain s files).1.tree := by
  induction files generalizing s with
  | nil => exact .refl _
  | cons file files ih =>
    rw [forFiles]
    split
    · next hok => exact (hdeal s file _ hok).trans (ih { s with tree := _ })
    · exact (s.err_edits _).trans (ih _)

theorem removeEntry_edits {force everything : Bool} {file : String} {tree : Tree}
    (h : removeEntry force everything s file = .ok tree) : s.tree.Edits tree := by
  have hignore {c : Cause} (h : (if force then .ok s.tree else .error c) = Except.ok tree) :
      s.tree.Edits tree := by
    split at h
    · cases h
      exact .refl _
    · cases h
  unfold removeEntry at h
  dsimp only at h
  split at h
  · exact hignore h
  · split at h
    · exact hignore h
    · split at h
      · cases h
        exact .single fun _ => .clear _
      · cases h
    · next hfolder hget =>
      cases h
      exact .single fun _ => .unlink (by simpa [hget] using hfolder)

theorem touchEntry_edits {file : String} {tree : Tree} (h : touchEntry s file = .ok tree) :
    s.tree.Edits tree := by
  rw [touchEntry] at h
  cases hwalk : s.walk true file with
  | error cause => simp [hwalk, bind, Except.bind] at h
  | ok place =>
    simp only [hwalk, bind, Except.bind] at h
    split at h
    · next hget =>
      cases h
      exact put_edits hwalk (Tree.skeleton_of_vacant hget) _ _ _
    · next hget =>
      cases h
      exact put_edits hwalk (Tree.skeleton_of_file hget) _ _ _
    · cases h
      exact .refl _

theorem makeFolders_edits {t tree : Tree} {done : Place} {names : List String}
    (hdone : t.get? done = some .folder) (h : makeFolders t done names = .ok tree) :
    t.Edits tree := by
  induction names generalizing t done with
  | nil =>
    cases h
    exact .refl _
  | cons name names ih =>
    rw [makeFolders] at h
    split at h
    · next hget =>
      have hparent : t.get? (done ++ [name]).dropLast = some .folder := by simpa using hdone
      exact (Tree.Edits.single fun _ => .make hget hparent).trans (ih (by simp) h)
    · next hget => exact ih hget h
    · split at h
      · cases h
      · split at h
        · next hgoal => exact ih (of_decide_eq_true hgoal) h
        · cases h

theorem makeEntry_edits {withParents : Bool} {file : String} {tree : Tree}
    (h : makeEntry withParents s file = .ok tree) : s.tree.Edits tree := by
  rw [makeEntry] at h
  split at h
  · exact makeFolders_edits (by simp) h
  · cases hwalk : s.walk false file with
    | error cause => simp [hwalk, bind, Except.bind] at h
    | ok place =>
      simp only [hwalk, bind, Except.bind] at h
      split at h
      · cases h
      · next hvacant =>
        cases h
        have hget : s.tree.get? place = none := by simpa using hvacant
        exact .single fun hs => .make hget (State.walk_parent hs hwalk (by simp [hget]))

theorem sleep_edits (s : State) (args : List String) : s.tree.Edits (sleep s args).1.tree := by
  rw [sleep]
  split
  · exact s.err_edits _
  · split
    · exact s.err_edits _
    · split
      · exact .refl _
      · exact .refl _

theorem head_edits (s : State) (args : List String) : s.tree.Edits (head s args).1.tree := by
  unfold head
  split <;> exact s.out_edits _

theorem repeatLine_edits (s : State) (args : List String) :
    s.tree.Edits (repeatLine s args).1.tree := by
  rw [repeatLine]
  split
  · exact s.out_edits _
  · exact .refl _

theorem grep_edits (s : State) (args : List String) : s.tree.Edits (grep s args).1.tree := by
  unfold grep
  split
  · exact .refl _
  · dsimp only
    rw [tree_finish]
    split
    case' isFalse => split <;> refine .trans ?_ (State.out_edits _ _)
    -- Before anything is written, the files that cannot be read are reported.
    all_goals
      refine State.foldl_edits (fun s c => ?_) s _
      split
      · exact s.err_edits _
      · exact .refl _

/-- The system's own file is rewritten if it is there. -/
private theorem limitSize_edits {bytes : Bytes} {mode : Nat} {changed : Changed}
    (hget : s.tree.get? limitsPlace = some (.file bytes mode changed)) (limit : Option Nat) :
    s.tree.Edits (s.tree.limitSize limit) :=
  .single fun hs => .write (Tree.skeleton_of_file hget) (hs _ _ (by decide) hget) _ _ _

theorem setLimit_edits (s : State) (args : List String) :
    s.tree.Edits (setLimit s args).1.tree := by
  unfold setLimit
  dsimp only
  split
  · exact .refl _
  · split
    · rw [tree_finish]
      split
      · next hget =>
        split
        · exact limitSize_edits hget none
        · exact .refl _
      · exact .refl _
    · split
      · next n _ =>
        rw [tree_finish]
        split
        · next hget =>
          split
          · exact limitSize_edits hget (some n.toNat)
          · exact .refl _
        · exact .refl _
      · exact s.err_edits _

/-- A program edits the tree. -/
theorem runProgram_edits {name : String} {args : List String} {e : Effect}
    (h : runProgram s name args = some e) : s.tree.Edits e.1.tree := by
  unfold runProgram at h
  dsimp only at h
  split at h
  -- The cases are numbered as `runProgram` has them: `true`, `false` and `pgrep` give no more than a
  -- status, and `echo`, `printf`, `pwd`, `tr` and `seq` write at most.
  case h_1 | h_2 | h_6 =>
    cases h
    exact .refl _
  case h_3 | h_8 =>
    cases h
    exact s.out_edits _
  case h_4 | h_12 | h_13 =>
    split at h
    all_goals
      cases h
      first
        | exact s.out_edits _
        | exact s.err_edits _
        | exact .refl _
  case h_5 =>
    cases h
    exact sleep_edits s args
  case h_7 =>
    cases h
    exact setLimit_edits s args
  case h_9 =>
    cases h
    exact cat_edits s _
  case h_10 =>
    cases h
    exact head_edits s args
  case h_11 =>
    cases h
    exact repeatLine_edits s args
  case h_14 =>
    cases h
    exact grep_edits s args
  case h_15 =>
    cases h
    exact forFiles_edits (fun _ _ _ => removeEntry_edits) s _
  case h_16 =>
    cases h
    exact forFiles_edits (fun _ _ _ => touchEntry_edits) s _
  case h_17 =>
    cases h
    exact forFiles_edits (fun _ _ _ => makeEntry_edits) s _
  case h_18 =>
    cases h
    split <;> exact .refl _
  case h_19 =>
    split at h
    · cases h
      split <;> exact .refl _
    · cases h
      exact s.err_edits _
  case h_20 => cases h

end ConfigSteward.Shell
