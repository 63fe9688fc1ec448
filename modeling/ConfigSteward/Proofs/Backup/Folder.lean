import ConfigSteward.Proofs.Backup.Refining

/-!
# The folder of a store

A store that was opened stays in its folder, whatever else the folder holds: links, folders, files of
other kinds. Making a backup adds one entry to it, taking one away drops one that is no folder, and a
listing has every backup that can be described.
-/
namespace ConfigSteward

open Plan

/-- The names of a folder's place lead to that place in every tree that has the folder. -/
theorem Tree.Leads.of_folder {t t' : Tree} {follow : Bool} {links : Nat} {p q : Place}
    {names : List String} (ht : t.Sound) (ht' : t'.Sound) (h : t.Leads follow links p names q)
    (hup : ".." ∉ names) (hthere : t.get? (p ++ names) = some .folder)
    (hthere' : t'.get? (p ++ names) = some .folder) : t'.Leads follow links p names (p ++ names) := by
  have hfirst {p : Place} {name : String} {names : List String} {t : Tree} (ht : t.Sound)
      (hthere : t.get? (p ++ name :: names) = some .folder) : t.skeleton (p ++ [name]) = some .folder :=
    Tree.skeleton_eq_folder_iff.mpr (ht.folder_above hthere ⟨names, by simp⟩)
  induction h with
  | @stop _ p =>
    rw [List.append_nil]
    exact .stop
  | up => exact absurd List.mem_cons_self hup
  | @into _ p q name names plain _ _ ih =>
    have hnext : p ++ [name] ++ names = p ++ name :: names := by simp
    rw [← hnext]
    exact .into plain (hfirst ht' hthere') (ih (fun hmem => hup (List.mem_cons_of_mem _ hmem))
      (hnext ▸ hthere) (hnext ▸ hthere'))
  | leaf _ found | kept _ found | through _ found =>
    rw [hfirst ht hthere] at found
    cases found

namespace Store

variable {s : Store} {w v : World} {artifact name : String} {content : Bytes} {place q : Place}
  {node : Option Node}

/-- The store's folder is there. -/
structure Founded (s : Store) (w : World) : Prop where
  sound : w.Sound
  straight : ".." ∉ s.folder
  there : w.tree.get? s.folder = some .folder

namespace Founded

section
variable (h : s.Founded w)
include h

theorem of_alike (halike : w.Alike v) : s.Founded v :=
  ⟨halike.sound h.sound, h.straight, halike.1 ▸ h.there⟩

/-- An entry of the folder that is no folder itself comes, changes or goes. -/
theorem of_sets (hset : w.tree.Sets (s.folder ++ [name]) node v.tree) (hhere : v.here = w.here)
    (hentry : w.tree.get? (s.folder ++ [name]) ≠ some .folder) : s.Founded v := by
  refine ⟨⟨hset.sound h.sound.tree hentry (by simpa using h.there), ?_⟩, h.straight, ?_⟩
  · rw [hhere, hset.other (fun heq => hentry (heq ▸ h.sound.here)), h.sound.here]
  · rw [hset.other (by simp), h.there]

theorem folder_eq {follow : Bool} {folder : Place}
    (hwalk : w.tree.walk follow w.here s.folder.path = .ok folder) : folder = s.folder := by
  obtain ⟨-, hleads⟩ := Tree.walk_eq_ok_iff.mp hwalk
  exact hleads.unique (hleads.of_folder h.sound.tree h.sound.tree h.straight h.there h.there)

/-- The path of a backup lands directly in the folder. -/
theorem split (hlands : w.Lands (s.pathOf name) place) :
    Tree.Plain name ∧ place = s.folder ++ [name] := by
  obtain ⟨folder, hwalk, -, hplain, rfl⟩ := hlands.split h.sound
  rw [pathOf, Path.parent_child] at hwalk
  rw [pathOf, Path.name_child] at hplain ⊢
  exact ⟨hplain, by rw [h.folder_eq hwalk]⟩

/-- A path in the folder leads to the entry of its name, unless it leads up. -/
theorem walk_cases (hwalk : w.tree.walk false w.here (s.pathOf name) = .ok q) :
    q = s.folder ++ [name] ∨ name = ".." ∧ w.tree.get? q = some .folder := by
  obtain ⟨hlen, hleads⟩ := Tree.walk_eq_ok_iff.mp hwalk
  have hstart := Tree.get?_start h.sound.here (s.pathOf name)
  obtain ⟨folder, hfolder, hthere, hend⟩ := hleads.unsnoc h.sound.tree hstart
  have hplace : folder = s.folder :=
    hfolder.unique (hfolder.of_folder h.sound.tree h.sound.tree h.straight h.there h.there)
  rcases hend with ⟨rfl, rfl⟩ | ⟨-, rfl⟩
  · refine .inr ⟨rfl, ?_⟩
    by_cases hnil : folder = []
    · simp [hnil]
    · exact h.sound.tree folder _ hnil hthere
  · exact .inl (by rw [hplace])

/-- Where the folder is still there, the path of an entry leads to the same place. -/
theorem lands_of (h' : s.Founded v) (hlands : w.Lands (s.pathOf name) place)
    (hleaf : v.tree.skeleton place = none) : v.Lands (s.pathOf name) place := by
  refine ⟨?_, hleaf⟩
  obtain ⟨folder, hwalk, -, hplain, hplace⟩ := hlands.split h.sound
  rw [pathOf, Path.parent_child] at hwalk
  rw [pathOf, Path.name_child] at hplain hplace
  obtain ⟨-, hleads⟩ := Tree.walk_eq_ok_iff.mp hwalk
  have hleads' := hleads.of_folder h.sound.tree h'.sound.tree h.straight h.there h'.there
  rw [hplace, h.folder_eq hwalk]
  exact Tree.walk_eq_ok_iff.mpr ⟨(Tree.walk_eq_ok_iff.mp hlands.walk).1,
    hleads'.snoc h'.there hplain⟩

end
end Founded

/-! ### Taking backups away -/

/-- The world without the entry of the folder that a name stands for, which was no folder. -/
structure Drops (s : Store) (given name : String) (w v : World) : Prop where
  stands : w.tree.resolve w.here (s.pathOf given) = .ok (s.folder ++ [name])
  there : w.tree.get? (s.folder ++ [name]) ≠ none
  entry : w.tree.get? (s.folder ++ [name]) ≠ some .folder
  dropped : v = { w with tree := w.tree.remove (s.folder ++ [name]) }

/-- What is found is the place in the folder that the name stands for. -/
theorem does_find_place (s : Store) (w : World) (name : String) :
    (s.find name).run.Does (· = w) w fun r v _ => v = w ∧
      ∀ path, r = .ok path → ∃ place : Place, w.tree.resolve w.here (s.pathOf name) = .ok place ∧
        place.dropLast = s.folder ∧ path = place.path := by
  rw [find]
  by_cases hname : (Name.isSafe name && Name.endsIn Name.backupSuffix name) = true
  · simp only [hname, if_true]
    refine does_andThen.mpr (Task.does_resolve_eq rfl (fun place hplace => ?_) fun place hplace => ?_)
    · by_cases hfolder : place.dropLast = s.folder
      · simp only [hfolder, if_true]
        refine does_andThen.mpr (Task.does_ofFile.mpr (FileTask.does_leads.mpr ⟨rfl, ?_⟩))
        rcases FileTask.leadsIn w _ _ with f | (_ | _)
        · exact ⟨rfl, rfl, by simp⟩
        · exact does_throw.mpr ⟨rfl, rfl, by simp⟩
        · refine does_pure.mpr ⟨rfl, rfl, fun path hpath => ⟨place, hplace, hfolder, ?_⟩⟩
          exact (Except.ok.inj hpath).symm
      · simp only [hfolder, if_false]
        exact Task.does_refuse.mpr ⟨rfl, rfl, by simp⟩
    · exact ⟨rfl, rfl, by simp⟩
  · simp only [hname]
    exact Task.does_refuse.mpr ⟨rfl, rfl, by simp⟩

namespace Founded

section
variable (h : s.Founded w)
include h

/-- Removing a file of the folder drops its entry, or fails and changes nothing. -/
theorem unlink_cases {place : Place} (hplace : place.dropLast = s.folder) :
    (∃ f, w.unlink place.path = (.error f, w)) ∨
      ∃ name, place = s.folder ++ [name] ∧ w.tree.get? place ≠ none ∧
        w.tree.get? place ≠ some .folder ∧
        w.unlink place.path = (.ok (), { w with tree := w.tree.remove place }) := by
  unfold World.unlink
  split
  · exact .inl ⟨_, rfl⟩
  · next q hwalk =>
    split
    · exact .inl ⟨_, rfl⟩
    · exact .inl ⟨_, rfl⟩
    · next node hfolder hget =>
      right
      have hnode : w.tree.get? q ≠ some .folder :=
        fun heq => hfolder (Option.some.inj (hget.symm.trans heq))
      rcases List.eq_nil_or_concat place with rfl | ⟨front, last, rfl⟩
      · obtain ⟨-, hleads⟩ := Tree.walk_eq_ok_iff.mp hwalk
        have hq : q = [] := hleads.unique .stop
        exact absurd (hq ▸ Tree.get?_nil _) hnode
      · rw [List.concat_eq_append] at hplace hwalk ⊢
        rw [List.dropLast_concat] at hplace
        subst hplace
        have hwalk' : w.tree.walk false w.here (s.pathOf last) = .ok q := by
          simpa [pathOf, Path.child, Place.path] using hwalk
        rcases h.walk_cases hwalk' with rfl | ⟨-, hq⟩
        · exact ⟨last, rfl, by simp [hget], hnode, rfl⟩
        · exact absurd hq hnode

/-- Taking a backup away drops the entry that its name stands for, or fails and changes nothing. -/
theorem does_delete (given : String) :
    (s.delete given).run.Does (fun _ => True) w fun r v _ =>
      (∃ failure, r = .error failure) ∧ v = w ∨ r = .ok () ∧ ∃ name, Drops s given name w v := by
  rw [delete]
  refine does_andThen.mpr ((does_find_place s w given).mono (fun _ _ => trivial) ?_)
  rintro (failure | path) v es ⟨rfl, hpath⟩
  · exact ⟨trivial, .inl ⟨⟨failure, rfl⟩, rfl⟩⟩
  · obtain ⟨place, hresolve, hplace, rfl⟩ := hpath path rfl
    refine does_andThen.mpr (Task.does_attemptFile.mpr (FileTask.does_unlink.mpr
      ⟨trivial, trivial, ?_⟩))
    rcases h.unlink_cases hplace with ⟨f, hunlink⟩ | ⟨name, rfl, hthere, hentry, hunlink⟩
    · rw [hunlink]
      by_cases hf : f.cause = .noEntry
      · simp only [hf, if_true]
        exact Task.does_refuse.mpr ⟨trivial, .inl ⟨⟨_, rfl⟩, rfl⟩⟩
      · simp only [hf, if_false]
        exact Task.does_refuse.mpr ⟨trivial, .inl ⟨⟨_, rfl⟩, rfl⟩⟩
    · rw [hunlink]
      exact does_pure.mpr ⟨trivial, .inr ⟨rfl, name, hresolve, hthere, hentry, rfl⟩⟩

end
end Founded

/-! ### Listing -/

/-- A backup in the folder that a listing describes as itself. -/
structure Shelved (s : Store) (w : World) (b : Backup) : Prop where
  lands : w.Lands (s.pathOf b.name) (s.folder ++ [b.name])
  file : ∃ bytes mode changed, w.tree.get? (s.folder ++ [b.name]) = some (.file bytes mode changed) ∧
    b.size = bytes.length
  ends : Name.endsIn Name.backupSuffix b.name = true
  told : ∀ changed, ownerAndTime b.name changed = .ok (b.artifact, b.created)

theorem does_describe_name (s : Store) (w : World) (wanted : Option String) (name : String) :
    (s.describe wanted name).run.Does (· = w) w fun r v _ => v = w ∧
      ∀ b, r = .ok (some b) → b.name = name := by
  rw [describe]
  split
  · refine does_andThen.mpr (Task.does_ofFile.mpr (FileTask.does_leads.mpr ⟨rfl, ?_⟩))
    rcases FileTask.leadsIn w (s.pathOf name) _ with f | (_ | _)
    · exact ⟨rfl, rfl, by simp⟩
    · exact does_pure.mpr ⟨rfl, rfl, by simp⟩
    · refine does_andThen.mpr (Task.does_ofFile.mpr (FileTask.does_look.mpr ⟨rfl, ?_⟩))
      rcases w.look (s.pathOf name) with f | status
      · exact ⟨rfl, rfl, by simp⟩
      · simp only [Except.mapError]
        rcases ownerAndTime name status.changed with f | ⟨owner, created⟩
        · exact does_throw.mpr ⟨rfl, rfl, by simp⟩
        · refine does_pure.mpr ⟨rfl, rfl, fun b hb => ?_⟩
          obtain ⟨-, hb⟩ := Option.ite_none_left_eq_some.mp (Except.ok.inj hb)
          exact Option.some.inj hb ▸ rfl
  · exact does_pure.mpr ⟨rfl, rfl, by simp⟩

theorem Shelved.does_describe {b : Backup} (h : s.Shelved w b) :
    (s.describe (some b.artifact) b.name).run.Does (· = w) w fun r v _ =>
      r = .ok (some b) ∧ v = w := by
  obtain ⟨bytes, mode, changed, hfile, hsize⟩ := h.file
  have hleads : FileTask.leadsIn w (s.pathOf b.name) (fun status => status.kind = .file)
      = .ok true := by
    rw [FileTask.leadsIn, h.lands.look_file hfile]
    rfl
  rw [describe, if_pos h.ends]
  refine does_andThen.mpr (Task.does_ofFile.mpr (FileTask.does_leads.mpr ⟨rfl, ?_⟩))
  rw [hleads]
  refine does_andThen.mpr (Task.does_ofFile.mpr (FileTask.does_look.mpr ⟨rfl, ?_⟩))
  rw [h.lands.look_file hfile]
  simp only [Except.mapError, h.told]
  exact does_pure.mpr ⟨rfl, by simp [← hsize], rfl⟩

/-- Describing entries passes over none of an artifact's backups among them. -/
theorem does_describeAll_shelved (s : Store) (w : World) (artifact : String) (names : List String) :
    (s.describeAll (some artifact) names).run.Does (· = w) w fun r v _ => v = w ∧
      ∀ bs, r = .ok bs → (bs.map (·.name)).Sublist names ∧
        ∀ b, s.Shelved w b → b.artifact = artifact → b.name ∈ names → b ∈ bs := by
  induction names with
  | nil => exact does_pure.mpr ⟨rfl, rfl, by rintro bs ⟨⟩; simp⟩
  | cons name names ih =>
    rw [describeAll]
    have hshelved : (s.describe (some artifact) name).run.Does (· = w) w fun r v _ =>
        (v = w ∧ ∀ b, r = .ok (some b) → b.name = name) ∧
          ∀ b, s.Shelved w b → b.artifact = artifact → b.name = name → r = .ok (some b) := by
      refine ⟨fun v hv => (s.does_describe_name w _ name).through v hv,
        (s.does_describe_name w _ name).ends, ?_⟩
      rintro b hb rfl rfl
      exact hb.does_describe.ends.1
    refine does_andThen.mpr (hshelved.mono (fun _ hv => hv) ?_)
    rintro r v es ⟨⟨rfl, hname⟩, hmade⟩
    rcases r with failure | (_ | b)
    · exact ⟨rfl, rfl, by simp⟩
    · refine ih.mono (fun _ hv => hv) ?_
      rintro r u es ⟨rfl, hrest⟩
      refine ⟨rfl, fun bs hbs => ⟨((hrest bs hbs).1).cons _, fun b hb howner hmem => ?_⟩⟩
      rcases List.mem_cons.mp hmem with heq | hmem
      · cases hmade b hb howner heq
      · exact (hrest bs hbs).2 b hb howner hmem
    · refine does_andThen.mpr (ih.mono (fun _ hv => hv) ?_)
      rintro (failure | bs) u es ⟨rfl, hrest⟩
      · exact ⟨rfl, rfl, by simp⟩
      · obtain ⟨hsub, hmem⟩ := hrest bs rfl
        refine does_pure.mpr ⟨rfl, rfl, ?_⟩
        rintro _ ⟨⟩
        refine ⟨?_, fun b' hb' howner hmem' => ?_⟩
        · rw [List.map_cons, hname b rfl]
          exact hsub.cons_cons _
        · rcases List.mem_cons.mp hmem' with heq | hmem'
          · cases hmade b' hb' howner heq
            exact List.mem_cons_self
          · exact List.mem_cons_of_mem _ (hmem b' hb' howner hmem')

/-- A listing descends and has all backups of the artifact that can be described. -/
theorem Founded.does_list_shelved (h : s.Founded w) (hdistinct : w.tree.Distinct)
    (artifact : String) :
    (s.list (some artifact)).run.Does (· = w) w fun r v _ => v = w ∧
      ∀ bs, r = .ok bs → (bs.Pairwise fun a b => b.name < a.name) ∧
        ∀ b, s.Shelved w b → b.artifact = artifact → b ∈ bs := by
  rw [list]
  refine does_andThen.mpr (Task.does_ofFileOr.mpr (FileTask.does_list.mpr ⟨rfl, ?_⟩))
  have hlist : (∃ f, w.list s.folder.path = .error f) ∨
      w.list s.folder.path = .ok (w.tree.children s.folder) := by
    unfold World.list World.onNode
    rcases hwalk : w.tree.walk true w.here s.folder.path with cause | folder
    · exact .inl ⟨_, rfl⟩
    · cases h.folder_eq hwalk
      exact .inr (by simp only [h.there])
  rcases hlist with ⟨f, hlist⟩ | hlist
  · rw [hlist]
    exact ⟨rfl, rfl, by simp⟩
  · rw [hlist]
    refine does_andThen.mpr ((does_describeAll_shelved s w artifact _).mono (fun _ hv => hv) ?_)
    rintro (failure | bs) v es ⟨rfl, hbs⟩
    · exact ⟨rfl, rfl, by simp⟩
    · obtain ⟨hsub, hmem⟩ := hbs bs rfl
      refine does_pure.mpr ⟨rfl, rfl, ?_⟩
      rintro _ ⟨⟩
      refine ⟨descends_of_nodup ((hdistinct.nodup_children s.folder).sublist hsub), ?_⟩
      intro b hb howner
      obtain ⟨bytes, mode, changed, hfile, -⟩ := hb.file
      rw [List.mem_mergeSort]
      exact hmem b hb howner (Tree.mem_children.mpr (by simp [hfile]))

end Store
end ConfigSteward
