import ConfigSteward.Proofs.Site.Effects

/-!
# Creating, renaming and deleting server files

A new server file takes a vacant place, a renamed one keeps its content under the new name, and what
a deleted one held is in the backup that is reported, if one is.
-/
namespace ConfigSteward

open Plan

namespace Site

open World

variable {s : Site} {w v : World} {st : Step} {p : Path}

theorem does_serverPathTask {I : World → Prop}
    {Q : Except Failure Path → World → List Execution → Prop} {name : Option String} :
    (s.serverPathTask name).run.Does I w Q ↔
      I w ∧ Q ((s.serverPath name).mapError Failure.refused) w [] := by
  unfold serverPathTask
  rcases s.serverPath name with refusal | p
  · exact Task.does_refuse
  · exact does_pure

/-- The refusal of a new server file after a fault. -/
def uncreated (p : Path) (f : Fault) : Refusal :=
  if f.cause = .alreadyThere then
    ⟨.alreadyExists, some "file already exists", [("name", .text p.name)]⟩
  else .fileAccess s!"Error creating {p.name}: {f.message}"

/-- What of a text comes into a new file: of one that cannot be encoded, nothing. -/
def written : RawText → Bytes
  | .whole text => Text.encodeString text
  | .broken _ => []

/-- The answer to a new file with a text: its path, unless the text cannot be encoded. -/
def creation (p : Path) (content : RawText) : Except Failure Path :=
  (content.encode.map fun _ => p).mapError .unencodable

/-- A new file fills up with a text at the vacant place that the path names, or nothing happens. -/
theorem does_writeNew (w : World) (p : Path) (content : RawText) :
    (∃ place, w.Lands p place ∧ w.tree.get? place = none ∧
      (writeNew p content).run.Does
        (fun v => v = w ∨ ∃ k, v = w.withFile place ((written content).take k)) w
        fun r v es => r = .ok () ∧ v = w.withFile place (written content) ∧ es = []) ∨
    ∃ f, w.vacancy p = .error f ∧
      (writeNew p content).run.Does (· = w) w fun r v es => r = .error f ∧ v = w ∧ es = [] := by
  cases content with
  | whole text => exact FileTask.does_createWith w p (Text.encodeString text)
  | broken text =>
    rcases w.add_cases p (.file [] World.plainMode .lately) with
      ⟨place, hlands, hnone, hadd⟩ | ⟨f, hvacancy, hadd⟩
    · refine .inl ⟨place, hlands, hnone, FileTask.does_create.mpr ?_⟩
      rw [hadd]
      exact ⟨.inl rfl, .inr ⟨0, rfl⟩, rfl, rfl, rfl⟩
    · refine .inr ⟨f, hvacancy, FileTask.does_create.mpr ?_⟩
      rw [hadd]
      exact ⟨rfl, rfl, rfl, rfl, rfl⟩

/-- Why a server file is not created: its name is refused, its lock cannot be taken or its place is not
vacant. -/
inductive Uncreated (s : Site) (w : World) (name : Option String) : Failure → Prop where
  | misnamed {refusal : Refusal} (goes : s.serverPath name = .error refusal) :
      Uncreated s w name (.refused refusal)
  | looped {p : Path} {place : Place} (goes : s.serverPath name = .ok p)
      (loop : w.tree.resolve w.here p = .error place) : Uncreated s w name (.linkLoop place)
  | taken {p : Path} {f : Fault} (goes : s.serverPath name = .ok p) (fault : w.vacancy p = .error f) :
      Uncreated s w name (.refused (uncreated p f))

/-- Creating a server file puts the content at a vacant place, where it comes up in parts, or fails
and changes nothing. -/
theorem does_createServer_ends (s : Site) (w : World) (name : Option String)
    (content : Option RawText) :
    (s.createServer name content).run.Does
      (fun v => v = w ∨ ∃ p place k, s.serverPath name = .ok p ∧ w.Lands p place ∧
        v = w.withFile place ((written (newContent content)).take k)) w fun r v _ =>
      (∃ failure, r = .error failure ∧ v = w ∧ s.Uncreated w name failure) ∨
      ∃ p place, s.serverPath name = .ok p ∧ w.vacancy p = .ok place ∧
        r = creation p (newContent content) ∧ v = w.withFile place (written (newContent content)) := by
  rw [createServer]
  refine does_andThen.mpr (does_serverPathTask.mpr ⟨.inl rfl, ?_⟩)
  rcases hp : s.serverPath name with refusal | p
  · exact ⟨.inl rfl, .inl ⟨_, rfl, rfl, .misnamed hp⟩⟩
  have hmade (k : Nat) {place : Place} (hlands : w.Lands p place) :
      ∃ p' place' k', (.ok p : Except Refusal Path) = .ok p' ∧ w.Lands p' place' ∧
        w.withFile place ((written (newContent content)).take k)
          = w.withFile place' ((written (newContent content)).take k') :=
    ⟨p, place, k, rfl, hlands, rfl⟩
  refine Lock.does_hold_or _ (.inl rfl) (fun q hq goal hloop => ?_) ?_
  · obtain rfl := List.mem_singleton.mp hq
    exact .inl ⟨_, rfl, rfl, .looped hp hloop⟩
  refine does_andThen.mpr (Task.does_attemptFile.mpr ?_)
  rcases does_writeNew w p (newContent content) with
    ⟨place, hlands, hnone, hwrite⟩ | ⟨f, hfault, hwrite⟩
  · refine hwrite.mono ?_ ?_
    · rintro v (rfl | ⟨k, rfl⟩)
      · exact .inl rfl
      · exact .inr (hmade k hlands)
    rintro r v es ⟨rfl, rfl, rfl⟩
    have hwhole := hmade (written (newContent content)).length hlands
    rw [List.take_length] at hwhole
    cases hcontent : newContent content with
    | whole text =>
      rw [hcontent] at hwhole
      exact does_pure.mpr ⟨.inr hwhole, .inr ⟨p, place, rfl, hlands.vacancy_eq hnone, rfl, rfl⟩⟩
    | broken text =>
      rw [hcontent] at hwhole
      exact does_throw.mpr ⟨.inr hwhole, .inr ⟨p, place, rfl, hlands.vacancy_eq hnone, rfl, rfl⟩⟩
  · refine hwrite.mono (fun v hv => .inl hv) ?_
    rintro r v es ⟨rfl, rfl, rfl⟩
    have hend : s.Uncreated v name (.refused (uncreated p f)) := .taken hp hfault
    dsimp only
    split
    · next hf =>
      rw [uncreated, if_pos hf] at hend
      exact Task.does_refuse.mpr ⟨.inl rfl, .inl ⟨_, rfl, rfl, hend⟩⟩
    · next hf =>
      rw [uncreated, if_neg hf] at hend
      exact Task.does_refuse.mpr ⟨.inl rfl, .inl ⟨_, rfl, rfl, hend⟩⟩

/-- A new server file takes a vacant place. -/
theorem does_createServer (s : Site) (w : World) (name : Option String)
    (content : Option RawText) :
    (s.createServer name content).run.Does (fun _ => True) w fun _ v _ =>
      v.noted = w.noted ∧ w.Alters v w.Vacant := by
  refine (s.does_createServer_ends w name content).mono (fun _ _ => trivial) ?_
  rintro r v es (⟨failure, -, rfl, -⟩ | ⟨p, place, -, hvacancy, -, rfl⟩)
  · exact ⟨rfl, .of_alike (.refl _)⟩
  · obtain ⟨hlands, hnone⟩ := vacancy_eq_ok_iff.mp hvacancy
    have hset := Tree.put_sets (t := w.tree) hlands.ne_nil
      (.file (written (newContent content)) World.plainMode .lately)
    exact ⟨rfl, .of_sets hset rfl hlands.leaf (Tree.skeleton_of_file hset.self) hnone⟩

/-- What renaming a server file does. -/
def Renames (s : Site) (w : World) (old new : Option String) (r : Except Failure (String × String))
    (v : World) : Prop :=
  v = w ∨ ∃ source target, s.serverPath old = .ok source ∧ s.serverPath new = .ok target ∧
    v.noted = w.noted ∧ w.Alters v (fun q => w.Vacant q ∨ q = source.placeFrom w.here) ∧
    r = .ok (source.name, target.name) ∧
    ∀ bytes, w.read source = .ok bytes → v.read target = .ok bytes

theorem does_renameServer (hw : w.Regular) (old new : Option String) :
    (s.renameServer old new).run.Does (fun _ => True) w fun r v _ => s.Renames w old new r v := by
  have hsame (r : Except Failure (String × String)) : s.Renames w old new r w := .inl rfl
  have hrefuse {refusal : Refusal} : (Task.refuse refusal : Task (String × String)).run.Does
      (fun _ => True) w fun r v _ => s.Renames w old new r v :=
    Task.does_refuse.mpr ⟨trivial, hsame _⟩
  rw [renameServer]
  split
  · exact hrefuse
  refine does_andThen.mpr (does_serverPathTask.mpr ⟨trivial, ?_⟩)
  rcases hsource : s.serverPath old with refusal | source
  · exact ⟨trivial, hsame _⟩
  refine does_andThen.mpr (does_serverPathTask.mpr ⟨trivial, ?_⟩)
  rcases htarget : s.serverPath new with refusal | target
  · exact ⟨trivial, hsame _⟩
  refine Lock.does_hold _ trivial (fun _ => hsame _) ?_
  refine does_andThen.mpr (Task.does_ofFile.mpr (FileTask.does_leads.mpr ⟨trivial, ?_⟩))
  rcases FileTask.leadsIn w source _ with f | (_ | _)
  · exact ⟨trivial, hsame _⟩
  · exact hrefuse
  refine does_andThen.mpr (Task.does_ofFile.mpr (FileTask.does_leads.mpr ⟨trivial, ?_⟩))
  rcases hnone : FileTask.leadsIn w target _ with f | (_ | _)
  · exact ⟨trivial, hsame _⟩
  · refine does_andThen.mpr (Task.does_ofFileOr.mpr (FileTask.does_move.mpr ⟨trivial, trivial, ?_⟩))
    obtain ⟨halters, hkeeps⟩ := hw.move_alters hnone
    have hnoted := w.noted_move source target
    rcases hmove : w.move source target with ⟨f | ⟨⟩, v⟩
    · rw [eq_of_move_error hmove]
      exact ⟨trivial, hsame _⟩
    · rw [hmove] at halters hkeeps hnoted
      exact does_pure.mpr ⟨trivial, .inr ⟨source, target, hsource, htarget, hnoted, halters, rfl,
        hkeeps rfl⟩⟩
  · exact hrefuse

theorem does_backUpIfPossible (s : Site) (w : World) (p : Path) :
    (s.backUpIfPossible p).run.Does (s.Copying w p) w fun r v _ =>
      (∃ backup, r = .ok backup) ∧ s.BacksUp w p r v := by
  have hw : s.Copying w p w := .inl (.refl w)
  rw [backUpIfPossible]
  refine does_andThen.mpr (Task.does_attemptFile.mpr (FileTask.does_read.mpr ⟨hw, ?_⟩))
  rcases hread : w.read p with f | content
  · exact does_pure.mpr ⟨hw, ⟨none, rfl⟩, .without (.inl rfl) nofun⟩
  refine does_andThen.mpr (Task.does_attempt.mpr
    ((s.does_create_copying hread).mono (fun _ hv => hv) ?_))
  rintro (failure | b) v es ⟨hbacks, hrefused⟩
  · obtain ⟨refusal, rfl⟩ := hrefused failure rfl
    refine does_pure.mpr ⟨hbacks.copying, ⟨none, rfl⟩, ?_⟩
    cases hbacks with
    | without hv => exact .without hv nofun
  · exact does_pure.mpr ⟨hbacks.copying, ⟨some b.name, rfl⟩, hbacks⟩

/-- The file is taken away, or all stays as it was. -/
theorem does_unlink_regular (hv : v.Regular) (p : Path) :
    (FileTask.unlink p).run.Does (fun _ => True) v fun r u es => es = [] ∧
      ((∃ f, r = .error f) ∧ u = v ∨
        r = .ok () ∧ u.noted = v.noted ∧ v.Alters u (· = p.placeFrom v.here)) := by
  refine FileTask.does_unlink.mpr ⟨trivial, trivial, rfl, ?_⟩
  have halters := hv.unlink_alters p
  rcases v.unlink_cases p with ⟨f, hunlink⟩ | ⟨place, hunlink⟩
  · rw [hunlink]
    exact .inl ⟨⟨f, rfl⟩, rfl⟩
  · rw [hunlink] at halters ⊢
    exact .inr ⟨rfl, rfl, halters⟩

/-- Deleting a server file deletes it or fails with all files as they were. -/
theorem does_deleteServer (hs : s.Sited w) (name : Option String) :
    (s.deleteServer name).run.Does (fun _ => True) w fun r v _ =>
      Balks w r v ∨ ∃ p backup, s.serverPath name = .ok p ∧ r = .ok backup ∧
        s.Exchanges w p backup v := by
  rw [deleteServer]
  refine does_andThen.mpr (does_serverPathTask.mpr ⟨trivial, ?_⟩)
  rcases hp : s.serverPath name with refusal | p
  · exact ⟨trivial, .inl (.same w _)⟩
  refine Lock.does_hold _ trivial (fun _ => .inl (.same w _)) ?_
  refine does_andThen.mpr (Task.does_ofFile.mpr (FileTask.does_leads.mpr ⟨trivial, ?_⟩))
  rcases FileTask.leadsIn w p _ with f | (_ | _)
  · exact ⟨trivial, .inl (.same w _)⟩
  · exact Task.does_refuse.mpr ⟨trivial, .inl (.same w _)⟩
  refine does_andThen.mpr ((s.does_backUpIfPossible w p).mono (fun _ _ => trivial) ?_)
  rintro r v es ⟨⟨backup, rfl⟩, hbacks⟩
  refine does_andThen.mpr (Task.does_attemptFile.mpr
    ((does_unlink_regular (hbacks.regular hs.regular) p).mono (fun _ _ => trivial) ?_))
  rintro r u es' ⟨rfl, ⟨⟨f, rfl⟩, rfl⟩ | ⟨rfl, hnoted, halters⟩⟩
  · dsimp only
    split
    · exact Task.does_refuse.mpr ⟨trivial, .inl (hbacks.balks hs _)⟩
    · exact Task.does_refuse.mpr ⟨trivial, .inl (hbacks.balks hs _)⟩
  · rw [(hbacks.alters hs).here] at halters
    exact does_pure.mpr ⟨trivial, .inr ⟨p, backup, rfl, rfl, ⟨v, hbacks, hnoted, halters⟩⟩⟩

end Site
end ConfigSteward
