import ConfigSteward.Proofs.Shell.Programs
import ConfigSteward.Shell.Programs

/-!
# What scripts do to the tree

Whatever a script says, it edits the tree and does nothing else to it. The functions that run scripts
call each other, each with less depth to go: `Editing` states the property for all of them at one depth,
and there is one lemma for each function one level deeper.
-/
namespace ConfigSteward.Shell

/-- At this depth, running leaves a tree that comes of the one before by edits. -/
structure Editing (fuel : Nat) : Prop where
  expand (x : Setting) (s : State) (w : Word) : s.tree.Edits (expand x s w fuel).2.tree
  outputOf (x : Setting) (s : State) (script : String) :
    s.tree.Edits (outputOf x s script fuel).2.tree
  expandAll (x : Setting) (s : State) (ws : List Word) :
    s.tree.Edits (expandAll x s ws fuel).2.tree
  assign (x : Setting) (s : State) (as : List (String × Word)) :
    s.tree.Edits (assign x s as fuel).tree
  redirect (x : Setting) (s s' : State) (rs : List Redirect) :
    (redirect x s rs fuel = .ok s' ∨ ∃ report, redirect x s rs fuel = .error (s', report)) →
      s.tree.Edits s'.tree
  runBatch (x : Setting) (s : State) (b : Batch) : s.tree.Edits (runBatch x s b fuel).1.tree
  runList (x : Setting) (s : State) (cs : List Command) :
    s.tree.Edits (runList x s cs fuel).1.tree
  runCommand (x : Setting) (s : State) (c : Command) :
    s.tree.Edits (runCommand x s c fuel).1.tree
  runChosen (x : Setting) (s : State) (subject : List Char)
    (arms : List (List Word × List Command)) :
    s.tree.Edits (runChosen x s subject arms fuel).1.tree
  describes (x : Setting) (s : State) (subject : List Char) (patterns : List Word) :
    s.tree.Edits (describes x s subject patterns fuel).2.tree
  runRepeat (x : Setting) (s : State) (whileOk : Bool) (condition body : List Command)
    (status : Nat) : s.tree.Edits (runRepeat x s whileOk condition body status fuel).1.tree
  runEach (x : Setting) (s : State) (name : String) (fields : List String) (body : List Command) :
    s.tree.Edits (runEach x s name fields body fuel).1.tree
  runNamed (x : Setting) (s : State) (line : Nat) (name : String) (args : List String) :
    s.tree.Edits (runNamed x s line name args fuel).1.tree
  runBuiltin (x : Setting) (s : State) (line : Nat) (name : String) (args : List String) :
    s.tree.Edits (runBuiltin x s line name args fuel).1.tree
  runExecutable (x : Setting) (s : State) (e : Executable) (name : String) (args : List String) :
    s.tree.Edits (runExecutable x s e name args fuel).1.tree
  runShell (x : Setting) (s : State) (b : Batch) : s.tree.Edits (runShell x s b fuel).1.tree

namespace Editing

variable {fuel : Nat} (h : Editing fuel) (x : Setting) (s : State)
include h

private theorem expand_succ (w : Word) : s.tree.Edits (Shell.expand x s w (fuel + 1)).2.tree := by
  match w with
  | [] => exact .refl _
  | .text _ :: w | .literal _ :: w | .arithmetic _ :: w => exact h.expand x s w
  | .variable quoted name :: w =>
    rw [Shell.expand]
    dsimp only
    split
    · exact h.expand x s w
    · exact h.expand x s w
  | .output quoted script :: w => exact (h.outputOf x s script).trans (h.expand x _ w)

private theorem outputOf_succ (script : String) :
    s.tree.Edits (Shell.outputOf x s script (fuel + 1)).2.tree := by
  rw [Shell.outputOf]
  exact h.runBatch x { s with captured := [], streams := { s.streams with out := .captured } } _

private theorem expandAll_succ (ws : List Word) :
    s.tree.Edits (Shell.expandAll x s ws (fuel + 1)).2.tree := by
  cases ws with
  | nil => exact .refl _
  | cons w ws => exact (h.expand x s w).trans (h.expandAll x _ ws)

private theorem assign_succ (as : List (String × Word)) :
    s.tree.Edits (Shell.assign x s as (fuel + 1)).tree := by
  cases as with
  | nil => exact .refl _
  | cons a as => exact (h.expand x s a.2).trans (h.assign x (State.set _ _ _) as)

private theorem redirect_succ (s' : State) (rs : List Redirect)
    (hends : Shell.redirect x s rs (fuel + 1) = .ok s' ∨
      ∃ report, Shell.redirect x s rs (fuel + 1) = .error (s', report)) :
    s.tree.Edits s'.tree := by
  cases rs with
  | nil =>
    rcases hends with hends | ⟨report, hends⟩
    · cases hends
      exact .refl _
    · cases hends
  | cons r rs =>
    rw [Shell.redirect] at hends
    refine (h.expandAll x s [r.target]).trans ?_
    dsimp only at hends
    split at hends
    · next htarget => exact (openTarget_edits htarget).trans (h.redirect x _ s' rs hends)
    · rcases hends with hends | ⟨report, hends⟩
      · cases hends
      · cases hends
        exact .refl _

private theorem runBatch_succ (b : Batch) :
    s.tree.Edits (Shell.runBatch x s b (fuel + 1)).1.tree := by
  have hlist := h.runList x s b.commands
  rw [Shell.runBatch]
  split
  · next heq =>
    rw [heq] at hlist
    split
    · exact hlist
    · exact hlist.trans (State.err_edits _ _)
  · exact hlist

private theorem runList_succ (cs : List Command) :
    s.tree.Edits (Shell.runList x s cs (fuel + 1)).1.tree := by
  cases cs with
  | nil => exact .refl _
  | cons c cs =>
    have hcommand := h.runCommand x s c
    have hrest (s : State) (ends : Prop) [Decidable ends] :
        s.tree.Edits (if ends then (s, .exit) else Shell.runList x s cs fuel).1.tree := by
      split
      · exact .refl _
      · exact h.runList x s cs
    unfold Shell.runList
    split
    · next hcs => cases hcs
    · next hcs =>
      cases hcs
      split
      · next heq =>
        rw [heq] at hcommand
        exact hcommand.trans (hrest _ _)
      · exact hcommand

private theorem simple_succ (line : Nat) (assignments : List (String × Word)) (words : List Word)
    (redirects : List Redirect) : s.tree.Edits
      (Shell.runCommand x s (.simple line assignments words redirects) (fuel + 1)).1.tree := by
  rw [Shell.runCommand]
  refine (h.expandAll x s words).trans ?_
  generalize Shell.expandAll x s words fuel = expanded
  obtain ⟨fields, s⟩ := expanded
  dsimp only
  split
  · next failed report hfails =>
    exact (h.redirect x s failed redirects (.inr ⟨report, hfails⟩)).trans (State.err_edits _ _)
  · next inner hleads =>
    refine (h.redirect x s inner redirects (.inl hleads)).trans ?_
    split
    · exact h.assign x (inner.withStatus 0) assignments
    · exact .refl _
    · exact (h.assign x inner assignments).trans (h.runNamed x _ line _ _)

private theorem group_succ (isolated : Bool) (body : List Command) (redirects : List Redirect) :
    s.tree.Edits (Shell.runCommand x s (.group isolated body redirects) (fuel + 1)).1.tree := by
  rw [Shell.runCommand]
  split
  · next failed report hfails =>
    exact (h.redirect x s failed redirects (.inr ⟨report, hfails⟩)).trans (State.err_edits _ _)
  · next inner hleads =>
    refine (h.redirect x s inner redirects (.inl hleads)).trans ?_
    dsimp only
    split
    · exact h.runList x inner body
    · exact h.runList x inner body

private theorem pipe_succ (first second : Command) :
    s.tree.Edits (Shell.runCommand x s (.pipe first second) (fuel + 1)).1.tree := by
  rw [Shell.runCommand]
  dsimp only
  split
  · exact .refl _
  · refine (h.runCommand x { s with captured := [], streams := { s.streams with out := .captured } }
      first).trans ?_
    exact h.runCommand x { s.after _ with captured := _, input := _ } second

private theorem branch_succ (condition yes no : List Command) :
    s.tree.Edits (Shell.runCommand x s (.branch condition yes no) (fuel + 1)).1.tree := by
  have hcondition := h.runList x { s with strict := false } condition
  rw [Shell.runCommand]
  split
  · next inner heq =>
    rw [heq] at hcondition
    refine hcondition.trans ?_
    dsimp only
    split
    · exact h.runList x { inner with strict := s.strict } yes
    · exact h.runList x (State.withStatus { inner with strict := s.strict } 0) no
  · exact hcondition

private theorem runCommand_succ (c : Command) :
    s.tree.Edits (Shell.runCommand x s c (fuel + 1)).1.tree := by
  cases c with
  | simple line assignments words redirects => exact h.simple_succ x s line assignments words redirects
  | group isolated body redirects => exact h.group_succ x s isolated body redirects
  | pipe first second => exact h.pipe_succ x s first second
  | branch condition yes no => exact h.branch_succ x s condition yes no
  | all first second =>
    have hfirst := h.runCommand x s first
    rw [Shell.runCommand]
    split
    · next heq =>
      rw [heq] at hfirst
      refine hfirst.trans ?_
      split
      · exact h.runCommand x _ second
      · exact .refl _
    · exact hfirst
  | any first second =>
    have hfirst := h.runCommand x s first
    rw [Shell.runCommand]
    split
    · next heq =>
      rw [heq] at hfirst
      refine hfirst.trans ?_
      split
      · exact .refl _
      · exact h.runCommand x _ second
    · exact hfirst
  | not body =>
    have hbody := h.runCommand x s body
    rw [Shell.runCommand]
    split
    · next heq =>
      rw [heq] at hbody
      exact hbody
    · exact hbody
  | «repeat» whileOk condition body => exact h.runRepeat x s whileOk condition body 0
  | each name words body =>
    exact (h.expandAll x s words).trans (h.runEach x (State.withStatus _ 0) name _ body)
  | choose subject arms =>
    exact (h.expand x s subject).trans (h.runChosen x (State.withStatus _ 0) _ arms)
  | define name body => exact .refl _

private theorem runChosen_succ (subject : List Char) (arms : List (List Word × List Command)) :
    s.tree.Edits (Shell.runChosen x s subject arms (fuel + 1)).1.tree := by
  cases arms with
  | nil => exact .refl _
  | cons arm arms =>
    refine (h.describes x s subject arm.1).trans ?_
    rw [Shell.runChosen]
    dsimp only
    split
    · exact h.runList x _ arm.2
    · exact h.runChosen x _ subject arms

private theorem describes_succ (subject : List Char) (patterns : List Word) :
    s.tree.Edits (Shell.describes x s subject patterns (fuel + 1)).2.tree := by
  cases patterns with
  | nil => exact .refl _
  | cons w ws =>
    refine (h.expand x s w).trans ?_
    rw [Shell.describes]
    dsimp only
    split
    · exact .refl _
    · exact h.describes x _ subject ws

private theorem runRepeat_succ (whileOk : Bool) (condition body : List Command) (status : Nat) :
    s.tree.Edits (Shell.runRepeat x s whileOk condition body status (fuel + 1)).1.tree := by
  have hcondition := h.runList x { s with strict := false } condition
  rw [Shell.runRepeat]
  split
  · next inner heq =>
    rw [heq] at hcondition
    refine hcondition.trans ?_
    dsimp only
    split
    · have hbody := h.runList x { inner with strict := s.strict } body
      split
      · next heq =>
        rw [heq] at hbody
        exact hbody.trans (h.runRepeat x _ whileOk condition body _)
      · next heq =>
        rw [heq] at hbody
        exact hbody.trans (h.runRepeat x _ whileOk condition body _)
      · next heq =>
        rw [heq] at hbody
        exact hbody
      · next heq =>
        rw [heq] at hbody
        exact hbody
      · exact hbody
    · exact .refl _
  · exact hcondition

private theorem runEach_succ (name : String) (fields : List String) (body : List Command) :
    s.tree.Edits (Shell.runEach x s name fields body (fuel + 1)).1.tree := by
  cases fields with
  | nil => exact .refl _
  | cons f fields =>
    have hbody := h.runList x (s.set name f) body
    rw [State.tree_set] at hbody
    rw [Shell.runEach]
    split
    · next heq =>
      rw [heq] at hbody
      exact hbody.trans (h.runEach x _ name fields body)
    · next heq =>
      rw [heq] at hbody
      exact hbody.trans (h.runEach x _ name fields body)
    · next heq =>
      rw [heq] at hbody
      exact hbody
    · next heq =>
      rw [heq] at hbody
      exact hbody
    · exact hbody

private theorem runNamed_succ (line : Nat) (name : String) (args : List String) :
    s.tree.Edits (Shell.runNamed x s line name args (fuel + 1)).1.tree := by
  rw [Shell.runNamed]
  split
  · next body _ => exact h.runCommand x { s with args := args } body
  · split
    · exact h.runBuiltin x s line name args
    · split
      · exact s.out_edits _
      · split
        · next e _ =>
          refine (h.runExecutable { x with parent := ownProcess }
            { s with status := 0, traps := [], strict := false } e name args).trans ?_
          dsimp only
          split
          · exact State.err_edits (s.after _) _
          · exact .refl _
          · exact .refl _
        · split
          · exact s.err_edits _
          · exact s.err_edits _

private theorem runBuiltin_succ (line : Nat) (name : String) (args : List String) :
    s.tree.Edits (Shell.runBuiltin x s line name args (fuel + 1)).1.tree := by
  unfold Shell.runBuiltin
  dsimp only
  split
  -- `return`, `break`, `continue`, `shift` and `read` leave files alone.
  case h_2 | h_3 | h_4 | h_5 | h_9 | h_17 => exact .refl _
  case h_1 =>
    split
    · split
      · exact s.err_edits _
      · exact .refl _
    · exact .refl _
  case h_6 =>
    split
    · split
      · exact .refl _
      · exact s.err_edits _
    · exact s.err_edits _
  case h_7 =>
    rw [tree_finish]
    split <;> exact .refl _
  case h_8 => split <;> exact .refl _
  case h_10 => exact State.foldl_edits (fun s name => .of_eq (s.tree_set name "")) s args
  case h_11 | h_12 | h_13 => exact State.foldl_edits (fun s arg => .of_eq (s.tree_export arg)) s args
  case h_14 => exact h.runBatch x s _
  case h_15 =>
    split
    · exact .refl _
    · split
      · exact s.err_edits _
      · exact h.runExecutable x s _ _ _
  case h_16 =>
    split
    · split
      · split
        · exact .refl _
        · split
          · exact .refl _
          · split
            · split
              · exact .refl _
              · exact h.runBatch x s _
            · split <;> exact .refl _
      · exact s.err_edits _
    · exact .refl _

private theorem runExecutable_succ (e : Executable) (name : String) (args : List String) :
    s.tree.Edits (Shell.runExecutable x s e name args (fuel + 1)).1.tree := by
  unfold Shell.runExecutable
  dsimp only
  split
  · next strict text =>
    exact h.runShell _ { s with bindings := _, functions := [], args := args, strict := strict } _
  · next program =>
    split
    · split
      · exact h.runShell _ { s with bindings := _, functions := [], args := _ } _
      · exact s.err_edits _
      · exact h.runShell _ { s with bindings := _, functions := [], args := [] } _
      · split
        · exact h.runShell _ { s with bindings := _, functions := [], args := _ } _
        · exact s.err_edits _
    · split
      · split
        · exact .refl _
        · exact (State.foldl_edits (fun s arg => .of_eq (s.tree_export arg)) s _).trans
            (h.runNamed _ _ 1 _ _)
      · split
        · next hprogram => exact runProgram_edits hprogram
        · exact .refl _

private theorem runShell_succ (b : Batch) :
    s.tree.Edits (Shell.runShell x s b (fuel + 1)).1.tree := by
  have hbatch := h.runBatch x s b
  rw [Shell.runShell]
  split
  · next heq =>
    rw [heq] at hbatch
    exact hbatch
  · next heq =>
    rw [heq] at hbatch
    exact hbatch
  · next inner _ _ _ heq =>
    rw [heq] at hbatch
    refine hbatch.trans ?_
    split
    · next action _ =>
      have haction := h.runBatch x { inner with traps := [] } (Batch.ofText action)
      dsimp only
      split
      · next heq =>
        rw [heq] at haction
        exact haction
      · next heq =>
        rw [heq] at haction
        exact haction
      · exact haction
    · exact .refl _

end Editing

/-- At every depth running leaves a tree that comes of the one before by edits. -/
theorem editing (fuel : Nat) : Editing fuel := by
  induction fuel with
  | zero =>
    exact {
      expand := fun _ _ _ => .refl _
      outputOf := fun _ _ _ => .refl _
      expandAll := fun _ _ _ => .refl _
      assign := fun _ _ _ => .refl _
      redirect := by
        rintro x s s' rs (hends | ⟨report, hends⟩)
        · cases hends
          exact .refl _
        · cases hends
      runBatch := fun _ _ _ => .refl _
      runList := fun _ _ _ => .refl _
      runCommand := fun _ _ _ => .refl _
      runChosen := fun _ _ _ _ => .refl _
      describes := fun _ _ _ _ => .refl _
      runRepeat := fun _ _ _ _ _ _ => .refl _
      runEach := fun _ _ _ _ _ => .refl _
      runNamed := fun _ _ _ _ _ => .refl _
      runBuiltin := fun _ _ _ _ _ => .refl _
      runExecutable := fun _ _ _ _ _ => .refl _
      runShell := fun _ _ _ => .refl _ }
  | succ fuel ih =>
    exact {
      expand := ih.expand_succ
      outputOf := ih.outputOf_succ
      expandAll := ih.expandAll_succ
      assign := ih.assign_succ
      redirect := ih.redirect_succ
      runBatch := ih.runBatch_succ
      runList := ih.runList_succ
      runCommand := ih.runCommand_succ
      runChosen := ih.runChosen_succ
      describes := ih.describes_succ
      runRepeat := ih.runRepeat_succ
      runEach := ih.runEach_succ
      runNamed := ih.runNamed_succ
      runBuiltin := ih.runBuiltin_succ
      runExecutable := ih.runExecutable_succ
      runShell := ih.runShell_succ }

/-- A command, run to its end or stopped, has edited the tree. -/
theorem programs_edit (limit : Option Limit) (here : Place) (ran : List (List String))
    (args : List String) (t : Tree) : t.Edits (programs limit here ran args t).2 := by
  rw [programs, runCommandLine]
  split
  · exact .refl t
  · dsimp only
    split
    · exact .refl t
    · exact (editing plenty).runExecutable _ { tree := t, here } _ _ _

/-- Whatever is run in a sound tree, every entry lies in a folder afterwards and no link has come up. -/
theorem programs_keep_sound (limit : Option Limit) (here : Place) (ran : List (List String))
    (args : List String) {t : Tree} (ht : t.Sound) :
    (programs limit here ran args t).2.Sound ∧
      (t.Distinct → (programs limit here ran args t).2.Distinct) ∧
      ∀ q target, (programs limit here ran args t).2.get? q = some (.link target) →
        t.get? q = some (.link target) := by
  have hedits := programs_edit limit here ran args t
  exact ⟨hedits.sound ht, hedits.distinct ht, fun q target => hedits.link ht⟩

end ConfigSteward.Shell
