import ConfigSteward.Proofs.Backup.Folder
import ConfigSteward.Proofs.Backup.Runs
import ConfigSteward.Proofs.Site.Calls

/-!
# What runs leave of the entries of a folder

A store never writes a backup a second time: in whatever order calls come and whatever the clock
does, an entry of its folder stays as it is until a call takes it away.
-/
namespace ConfigSteward

open Plan

namespace Store

variable {s : Store} {w v : World} {artifact name : String} {content : Bytes} {b : Backup}
  {st : Step} {steps : List Step}

theorem still_read {c : Call} (hc : (∃ name, c = .get name) ∨ ∃ wanted, c = .list wanted) :
    (s.call c).run.Still := by
  have h := Still.asking
  rcases hc with ⟨name, rfl⟩ | ⟨wanted, rfl⟩
  · exact h.andThen (h.get s name) fun _ => h.pure _
  · exact h.andThen (h.listBackups s wanted) fun _ => h.pure _

/-- The entry of a backup's name is in the folder. -/
def Taken (s : Store) (w : World) (name : String) : Prop :=
  w.tree.get? (s.folder ++ [name]) ≠ none

theorem Taken.of_eq (h : s.Taken w name)
    (hkept : v.tree.get? (s.folder ++ [name]) = w.tree.get? (s.folder ++ [name])) :
    s.Taken v name := by
  rw [Taken, hkept]
  exact h

/-- The step deletes the entry of a name: the name that it was given stands for that entry. -/
structure TakesAway (s : Store) (w : World) (st : Step) (name : String) : Prop where
  deletes : ∃ given, st.call = .delete given ∧
    w.tree.resolve w.here (s.pathOf given) = .ok (s.folder ++ [name])
  answered : s.calls.reply w st = .ok .deleted
  gone : ¬ s.Taken (s.calls.advance w st) name

/-- Some step of a run deletes the entry of a name. -/
def Frees (s : Store) (name : String) : World → List Step → Prop
  | _, [] => False
  | w, st :: steps => s.TakesAway w st name ∨ s.Frees name (s.calls.advance w st) steps

/-- The step makes the backup of a name whose entry was not there. -/
structure Makes (s : Store) (w : World) (st : Step) (name : String) : Prop where
  fresh : ¬ s.Taken w name
  answered : ∃ b, s.calls.reply w st = .ok (.created b) ∧ b.name = name

/-- The folder of a store stays. Each of its entries stays as it is, unless the step deletes it or
makes the backup of its name. -/
theorem Founded.step_cases (h : s.Founded w) (st : Step) : s.Founded (s.calls.advance w st) ∧ ∀ name,
    (s.calls.advance w st).tree.get? (s.folder ++ [name]) = w.tree.get? (s.folder ++ [name]) ∨
      s.TakesAway w st name ∨ s.Makes w st name := by
  have hmeets : s.Founded (st.meets w) := h.of_alike ⟨rfl, rfl⟩
  have hreads (hstill : (s.call st.call).run.Still) : s.calls.advance w st = st.meets w := hstill _
  rcases hc : st.call with ⟨artifact, content⟩ | given | given | wanted
  · have hdoes : (s.call st.call).run.Does (fun _ => True) (st.meets w) fun r v _ =>
        s.Founded v ∧ ∀ name, v.tree.get? (s.folder ++ [name]) = w.tree.get? (s.folder ++ [name]) ∨
          ¬ s.Taken w name ∧ ∃ b, r = .ok (.created b) ∧ b.name = name := by
      rw [hc]
      obtain ⟨name, place, hcreates⟩ := Store.does_create s (st.meets w) artifact content
      refine does_andThen.mpr (hcreates.mono (fun _ _ => trivial) ?_)
      rintro r v es ⟨rfl, ⟨refusal, rfl, hv⟩ | ⟨hslot, rfl, rfl⟩⟩
      · have halike := World.alike_of_noting hv
        exact ⟨trivial, hmeets.of_alike halike, fun _ => .inl (by rw [halike.1]; rfl)⟩
      · obtain ⟨-, rfl⟩ := hmeets.split hslot.lands
        have hset : (st.meets w).tree.Sets (s.folder ++ [name]) _
            (((st.meets w).noting artifact).withFile (s.folder ++ [name]) content).tree :=
          Tree.put_sets hslot.lands.ne_nil _
        refine does_pure.mpr ⟨trivial, hmeets.of_sets hset rfl hslot.lands.ne_folder, fun other => ?_⟩
        by_cases hother : other = name
        · subst hother
          exact .inr ⟨fun htaken => htaken hslot.vacant, _, rfl, rfl⟩
        · exact .inl (hset.other (by simpa using hother))
    obtain ⟨hfounded, hentries⟩ := hdoes.ends
    exact ⟨hfounded, fun name => (hentries name).imp_right fun ⟨hfresh, hmade⟩ => .inr ⟨hfresh, hmade⟩⟩
  · rw [hreads (hc ▸ still_read (.inl ⟨given, rfl⟩))]
    exact ⟨hmeets, fun _ => .inl rfl⟩
  · have hdoes : (s.call st.call).run.Does (fun _ => True) (st.meets w) fun r v _ =>
        v = st.meets w ∨ r = .ok .deleted ∧ ∃ name, s.Drops given name (st.meets w) v := by
      rw [hc]
      refine does_andThen.mpr ((hmeets.does_delete given).mono (fun _ _ => trivial) ?_)
      rintro r v es (⟨⟨failure, rfl⟩, hv⟩ | ⟨rfl, hv⟩)
      · exact ⟨trivial, .inl hv⟩
      · exact does_pure.mpr ⟨trivial, .inr ⟨rfl, hv⟩⟩
    rcases hdoes.ends with hv | ⟨hanswered, name, hstands, -, hentry, hdropped⟩
    · rw [advance_eq, hv]
      exact ⟨hmeets, fun _ => .inl rfl⟩
    · have hset : (st.meets w).tree.Sets (s.folder ++ [name]) none (s.calls.advance w st).tree := by
        rw [advance_eq, hdropped]
        exact Tree.remove_sets (by simp)
      refine ⟨hmeets.of_sets hset (by rw [advance_eq, hdropped]) hentry, fun other => ?_⟩
      by_cases hother : other = name
      · subst hother
        exact .inr (.inl ⟨⟨given, hc, hstands⟩, hanswered, fun htaken => htaken hset.self⟩)
      · exact .inl (hset.other (by simpa using hother))
  · rw [hreads (hc ▸ still_read (.inr ⟨wanted, rfl⟩))]
    exact ⟨hmeets, fun _ => .inl rfl⟩

/-- A call that made a backup put its content at a vacant place of the folder. -/
theorem Founded.created (h : s.Founded w) (hcall : st.call = .create artifact content)
    (hmade : s.calls.reply w st = .ok (.created b)) :
    s.Slot (st.meets w) artifact b.name (s.folder ++ [b.name]) ∧
      b = ⟨b.name, artifact, some ((st.meets w).readingFor artifact), content.length⟩ ∧
      s.calls.advance w st = ((st.meets w).noting artifact).withFile (s.folder ++ [b.name]) content := by
  have hmeets : s.Founded (st.meets w) := h.of_alike ⟨rfl, rfl⟩
  have hdoes : (s.call st.call).run.Does (fun _ => True) (st.meets w) fun r v _ =>
      r = .ok (.created b) → s.Slot (st.meets w) artifact b.name (s.folder ++ [b.name]) ∧
        b = ⟨b.name, artifact, some ((st.meets w).readingFor artifact), content.length⟩ ∧
        v = ((st.meets w).noting artifact).withFile (s.folder ++ [b.name]) content := by
    rw [hcall]
    obtain ⟨name, place, hcreates⟩ := Store.does_create s (st.meets w) artifact content
    refine does_andThen.mpr (hcreates.mono (fun _ _ => trivial) ?_)
    rintro r v es ⟨rfl, ⟨refusal, rfl, -⟩ | ⟨hslot, rfl, rfl⟩⟩
    · exact ⟨trivial, nofun⟩
    · refine does_pure.mpr ⟨trivial, ?_⟩
      rintro ⟨⟩
      obtain ⟨-, rfl⟩ := hmeets.split hslot.lands
      exact ⟨hslot, rfl, rfl⟩
  exact hdoes.ends hmade

theorem Founded.after (h : s.Founded w) (steps : List Step) : s.Founded (s.calls.after w steps) :=
  Calls.after_invariant h fun _ hv st _ => (hv.step_cases st).1

/-- An entry of the folder stays as it is until a step of the run deletes it. -/
theorem Founded.kept_or_freed (h : s.Founded w) (htaken : s.Taken w name) (steps : List Step) :
    (s.calls.after w steps).tree.get? (s.folder ++ [name]) = w.tree.get? (s.folder ++ [name]) ∨
      s.Frees name w steps := by
  induction steps generalizing w with
  | nil => exact .inl rfl
  | cons st steps ih =>
    obtain ⟨hfounded, hentries⟩ := h.step_cases st
    rcases hentries name with hkept | hgone | hmade
    · exact (ih hfounded (htaken.of_eq hkept)).imp (fun hrest => hrest.trans hkept) .inr
    · exact .inr (.inl hgone)
    · exact absurd htaken hmade.fresh

theorem founded_emptyAt {place : Place} (hup : ".." ∉ place) : Founded ⟨place⟩ (emptyAt place) :=
  ⟨⟨Tree.spine_sound _, Tree.get?_nil _⟩, hup, Tree.get?_spine_iff.mpr ⟨List.prefix_rfl, rfl⟩⟩

end Store
end ConfigSteward
