import ConfigSteward.Name.Server
import ConfigSteward.Proofs.Save.Failing

/-!
# What an observer finds

In the middle of a save the file holds its prior content or the new one in full, the new one only
once the prior one is backed up in full, and nothing comes up that reads as a server file or as a
backup but that backup and the folders above the file.
-/
namespace ConfigSteward.Save

open World

variable {s : Save} {store : Store} {c : Controller} {w u v x : World} {p : Path}
  {live place goal : Place} {mode : Nat} {prior : Option Bytes} {name : String}

/-- The path is that of a file or of nothing, outside the store's folder. With `..` in it, it leads
somewhere, so that the folders above stand. -/
structure Saveable (store : Store) (w : World) (p : Path) : Prop where
  ends : ∀ q, w.tree.walk false w.here p = .ok q → w.tree.skeleton q = none ∧ store.Outside w q
  leads : ".." ∈ p.parts → ∃ q, w.tree.walk false w.here p = .ok q

/-- The path is that of a file or of nothing, wherever that is. With `..` in it, it leads somewhere.
-/
structure Replaceable (w : World) (p : Path) : Prop where
  leaf : ∀ q, w.tree.walk false w.here p = .ok q → w.tree.skeleton q = none
  leads : ".." ∈ p.parts → ∃ q, w.tree.walk false w.here p = .ok q

theorem Saveable.replaceable (h : Saveable store w p) : Replaceable w p :=
  ⟨fun q hq => (h.ends q hq).1, h.leads⟩

/-- The path names a file with the content, or it names nothing. -/
def Holds (v : World) (p : Path) : Option Bytes → Prop
  | some bytes => v.read p = .ok bytes
  | none => ∀ q, v.tree.walk false v.here p = .ok q → v.tree.get? q = none

/-- The store has a new backup with the content, complete. -/
def BackedUp (store : Store) (w v : World) (name : String) (content : Bytes) : Prop :=
  ∃ place, v.Lands (store.pathOf name) place ∧ w.tree.get? place = none ∧
    v.tree.get? place = some (.file content plainMode .lately)

/-- A name under which an entry reads as a server file or as a backup. -/
def Telling (name : String) : Prop :=
  Name.endsIn Name.serverSuffix name = true ∨ Name.endsIn Name.backupSuffix name = true

/-- A folder on the way to the path. -/
def OnTheWay (v : World) (p : Path) (q : Place) : Prop :=
  v.tree.get? q = some .folder ∧
    ∃ front, front <+: p.parent.parts ∧ v.tree.Leads true linkBudget (p.start v.here) front q

/-- Every new entry with a telling name is the file, the backup or a folder on the way. -/
def Accounted (s : Save) (store : Store) (w : World) (name : String) (v : World) : Prop :=
  ∀ folder last, w.tree.get? (folder ++ [last]) = none →
    v.tree.get? (folder ++ [last]) ≠ none → Telling last →
      v.tree.walk false v.here s.path = .ok (folder ++ [last]) ∨
        v.tree.walk false v.here (store.pathOf name) = .ok (folder ++ [last]) ∨
          OnTheWay v s.path (folder ++ [last])

theorem not_telling_tempName (base : String) (n : Nat) : ¬ Telling (tempName base n) := by
  have htmp := suffix_tempName base n
  rintro (h | h)
  · have hsuffix := List.isSuffixOf_iff_suffix.mp h
    exact absurd (List.suffix_of_suffix_length_le htmp hsuffix (by decide)) (by decide)
  · have hsuffix := List.isSuffixOf_iff_suffix.mp h
    exact absurd (List.suffix_of_suffix_length_le htmp hsuffix (by decide)) (by decide)

/-- What is read is an entry that the path names. -/
theorem entry_of_read {bytes : Bytes} (h : v.read p = .ok bytes) :
    ∃ q, v.tree.walk false v.here p = .ok q ∧ v.tree.get? q ≠ none := by
  unfold World.read World.onNode at h
  rcases hwalk : v.tree.walk true v.here p with cause | place
  · simp [hwalk, World.fault] at h
  · rcases hget : v.tree.get? place with _ | node
    · simp [hwalk, hget, World.fault] at h
    · obtain ⟨hlen, hleads⟩ := Tree.walk_eq_ok_iff.mp hwalk
      obtain ⟨q, hq, rfl | ⟨target, hlink⟩⟩ := hleads.stop_at_link
      · exact ⟨q, Tree.walk_eq_ok_iff.mpr ⟨hlen, hq⟩, by simp [hget]⟩
      · exact ⟨q, Tree.walk_eq_ok_iff.mpr ⟨hlen, hq⟩, by simp [hlink]⟩

theorem Holds.ne_content {content : Bytes} (h : Holds v p prior) (hne : prior ≠ some content) :
    v.read p ≠ .ok content := by
  intro hread
  cases prior with
  | none =>
    obtain ⟨q, hwalk, hthere⟩ := entry_of_read hread
    exact hthere (h q hwalk)
  | some bytes =>
    have hbytes : bytes = content := Except.ok.inj (h.symm.trans hread)
    exact hne (hbytes ▸ rfl)

theorem Prior.held_eq (h : Prior w p prior) : held w p = prior := by
  cases prior with
  | none =>
    obtain ⟨f, hread, -⟩ := h
    rw [held, hread]
    rfl
  | some bytes =>
    rw [held, h]
    rfl

theorem Replaceable.steady (h : Replaceable w p) : w.Steady p := by
  by_cases hwalk : ∃ q, w.tree.walk false w.here p = .ok q
  · obtain ⟨q, hwalk⟩ := hwalk
    exact .inl ⟨q, hwalk, h.leaf q hwalk⟩
  · refine .inr (.inr ⟨fun hup => hwalk (h.leads hup), fun q target hq => ?_⟩)
    exact absurd ⟨q, hq⟩ hwalk

/-- The entry of a file with the content, or no entry. -/
def Keeps (node : Option Node) : Option Bytes → Prop
  | some bytes => ∃ mode changed, node = some (.file bytes mode changed)
  | none => node = none

/-- Where the path ends, if it does, is the prior content, and it is not the place of the backup. -/
structure Faces (v : World) (p : Path) (place : Place) (prior : Option Bytes) : Prop where
  ends : ∀ q, v.tree.walk false v.here p = .ok q → q ≠ place ∧ Keeps (v.tree.get? q) prior
  leads : prior ≠ none → ∃ q, v.tree.walk false v.here p = .ok q

theorem Keeps.skeleton {t : Tree} {q : Place} (h : Keeps (t.get? q) prior) :
    t.skeleton q = none := by
  cases prior with
  | none => exact Tree.skeleton_of_vacant h
  | some bytes =>
    obtain ⟨mode, changed, hfile⟩ := h
    exact Tree.skeleton_of_file hfile

theorem Keeps.of_putBack {t : Tree} {q : Place} {t' : Tree}
    (hset : t.Sets q (prior.map fun bytes => .file bytes mode .lately) t') :
    Keeps (t'.get? q) prior := by
  rw [hset.self]
  cases prior with
  | none => rfl
  | some bytes => exact ⟨mode, .lately, rfl⟩

theorem Faces.holds (h : Faces v p place prior) : Holds v p prior := by
  cases prior with
  | none => exact fun q hq => (h.ends q hq).2
  | some bytes =>
    obtain ⟨q, hq⟩ := h.leads (by simp)
    obtain ⟨mode, changed, hfile⟩ := (h.ends q hq).2
    exact World.Lands.read_file ⟨hq, Tree.skeleton_of_file hfile⟩ hfile

/-- A change that no walk sees and that spares the end of the path leaves what it faces. -/
theorem Faces.frame (h : Faces u p place prior)
    (hskeleton : ∀ q, v.tree.skeleton q = u.tree.skeleton q) (hhere : v.here = u.here)
    (hkeep : ∀ q, u.tree.walk false u.here p = .ok q → v.tree.get? q = u.tree.get? q) :
    Faces v p place prior := by
  have hwalk (q : Place) (hq : v.tree.walk false v.here p = .ok q) :
      u.tree.walk false u.here p = .ok q :=
    Tree.walk_mono (.of_eq fun q => (hskeleton q).symm) (hhere ▸ hq)
  refine ⟨fun q hq => ?_, fun hne => ?_⟩
  · rw [hkeep q (hwalk q hq)]
    exact h.ends q (hwalk q hq)
  · obtain ⟨q, hq⟩ := h.leads hne
    exact ⟨q, hhere ▸ Tree.walk_mono (.of_eq hskeleton) hq⟩

theorem Backs.dug (backs : s.Backs store w prior name place)
    (hdug : (s.stored w prior place).Dug s.path.parent u) :
    u.tree.get? place = some (.file (prior.getD []) plainMode .lately) ∧
      u.Lands (store.pathOf name) place := by
  have hfile : (s.stored w prior place).tree.get? place
      = some (.file (prior.getD []) plainMode .lately) := backs.slot.lands.get_put _
  have hkept := (hdug.kept (by simp [hfile])).trans hfile
  have hlands := backs.slot.lands.of_skeleton (v := s.stored w prior place) backs.skeleton rfl
  exact ⟨hkept, hlands.mono hdug.below hdug.here_eq (Tree.skeleton_of_file hkept)⟩

theorem Backs.dug_accounted (backs : s.Backs store w prior name place)
    (hdug : (s.stored w prior place).Dug s.path.parent u) :
    Accounted s store w name u := by
  intro folder last hnew hthere _
  have hlands := (backs.dug hdug).2
  obtain ⟨t, ht, rfl⟩ := hdug
  by_cases hplace : folder ++ [last] = place
  · exact .inr (.inl (hplace ▸ hlands.walk))
  · have hvacant := (backs.other hplace).trans hnew
    rcases ht.entry (folder ++ [last]) with heq | ⟨-, hfolder⟩
    · exact absurd (heq.trans hvacant) hthere
    · exact .inr (.inr ⟨hfolder, ht.named hvacant hthere⟩)

/-- Where the path leads, if it does, is not the place of the backup. -/
def Apart (w : World) (p : Path) (place : Place) : Prop :=
  ∀ q, w.tree.walk false w.here p = .ok q → q ≠ place

theorem Saveable.apart (h : Saveable store w s.path) (hw : w.Sound)
    (backs : s.Backs store w prior name place) : Apart w s.path place :=
  fun q hq => backs.slot.ne_outside hw (h.ends q hq).2

section
variable (hp : Replaceable w s.path) (backs : s.Backs store w prior name place)
  (apart : Apart w s.path place)
include hp backs apart

private theorem faces : Faces w s.path place prior := by
  refine ⟨fun q hq => ?_, fun hne => ?_⟩
  · refine ⟨apart q hq, ?_⟩
    rcases backs.prior.of_lands ⟨hq, hp.leaf q hq⟩ with ⟨hnone, rfl⟩ | ⟨bytes, mode, changed, hfile, rfl⟩
    · exact hnone
    · exact ⟨mode, changed, hfile⟩
  · obtain ⟨bytes, rfl⟩ := Option.ne_none_iff_exists'.mp hne
    obtain ⟨q, hwalk, -⟩ := entry_of_read backs.prior
    exact ⟨q, hwalk⟩

theorem withFile_faces (content : Bytes) :
    Faces (w.withFile place content) s.path place prior :=
  (faces hp backs apart).frame (fun q => backs.slot.lands.put_file _ _ _ q) rfl fun q hq =>
    (Tree.put_sets backs.slot.lands.ne_nil _).other (apart q hq)

private theorem stored_faces : Faces (s.stored w prior place) s.path place prior :=
  (withFile_faces hp backs apart (prior.getD [])).frame (fun _ => rfl) rfl fun _ _ => rfl

theorem dug_faces (hw : w.Sound) (hdug : (s.stored w prior place).Dug s.path.parent u) :
    Faces u s.path place prior := by
  have hstored := stored_faces hp backs apart
  by_cases hwalk : ∃ q, (s.stored w prior place).tree.walk false w.here s.path = .ok q
  · obtain ⟨q, hq⟩ := hwalk
    obtain rfl := hdug.of_lands (backs.sound hw) ⟨hq, (hstored.ends q hq).2.skeleton⟩
    exact hstored
  · have hup : ".." ∉ s.path.parts := by
      intro hup
      obtain ⟨q, hq⟩ := hp.leads hup
      exact hwalk ⟨q, Tree.walk_mono (.of_eq backs.skeleton) hq⟩
    have hnone : prior = none := by
      by_contra hne
      exact hwalk (hstored.leads hne)
    subst hnone
    refine ⟨fun q hq => ?_, fun hne => absurd rfl hne⟩
    rcases hdug.fresh (backs.sound hw) hup hq with rfl | hvacant
    · exact absurd ⟨q, hq⟩ hwalk
    · refine ⟨?_, hvacant⟩
      rintro rfl
      rw [(backs.dug hdug).1] at hvacant
      cases hvacant

end

/-- Entries that no walk sees are accounted for if they are the file or hidden. -/
theorem Accounted.frame (h : Accounted s store w name u)
    (hskeleton : ∀ q, v.tree.skeleton q = u.tree.skeleton q) (hhere : v.here = u.here)
    (hnew : ∀ q, u.tree.get? q = none → v.tree.get? q ≠ none →
      u.tree.walk false u.here s.path = .ok q ∨ ∃ r base n, q = r ++ [tempName base n]) :
    Accounted s store w name v := by
  have hbelow : u.tree.Below v.tree := .of_eq hskeleton
  intro folder last hvacant hthere htelling
  by_cases hu : u.tree.get? (folder ++ [last]) = none
  · rcases hnew _ hu hthere with hwalk | ⟨r, base, n, hq⟩
    · exact .inl (hhere ▸ Tree.walk_mono hbelow hwalk)
    · rw [List.singleton_inj.mp (List.append_inj_right' hq rfl)] at htelling
      exact absurd htelling (not_telling_tempName base n)
  · rcases h folder last hvacant hu htelling with hwalk | hwalk | ⟨hfolder, front, hfront, hleads⟩
    · exact .inl (hhere ▸ Tree.walk_mono hbelow hwalk)
    · exact .inr (.inl (hhere ▸ Tree.walk_mono hbelow hwalk))
    · exact .inr (.inr ⟨hbelow.folder hfolder, front, hfront, hhere ▸ hleads.mono hbelow⟩)

/-- What an observer finds in the middle of a save. -/
structure Observed (s : Save) (store : Store) (w : World) (name : String) (v : World) : Prop where
  content : Holds v s.path (held w s.path) ∨ v.read s.path = .ok s.content
  backed : v.read s.path = .ok s.content → BackedUp store w v name ((held w s.path).getD [])
  accounted : Accounted s store w name v

/-- The new content is in place and the prior one backed up. -/
structure Saved (s : Save) (store : Store) (w : World) (prior : Option Bytes) (name : String)
    (place goal : Place) (v : World) : Prop where
  lands : v.Lands s.path goal
  file : ∃ mode changed, v.tree.get? goal = some (.file s.content mode changed)
  backup : v.Lands (store.pathOf name) place
  backupFile : v.tree.get? place = some (.file (prior.getD []) plainMode .lately)
  accounted : Accounted s store w name v

theorem Observed.of_holds (h : Holds v s.path (held w s.path))
    (hne : held w s.path ≠ some s.content) (haccounted : Accounted s store w name v) :
    Observed s store w name v :=
  ⟨.inl h, fun hread => absurd hread (h.ne_content hne), haccounted⟩

theorem Saved.read_eq (h : Saved s store w prior name place goal v) :
    v.read s.path = .ok s.content := by
  obtain ⟨mode, changed, hfile⟩ := h.file
  exact h.lands.read_file hfile

theorem Saved.observed (h : Saved s store w prior name place goal v)
    (backs : s.Backs store w prior name place) : Observed s store w name v := by
  refine ⟨.inr h.read_eq, fun _ => ?_, h.accounted⟩
  rw [backs.prior.held_eq]
  exact ⟨place, h.backup, backs.slot.vacant, h.backupFile⟩

theorem Saved.frame (h : Saved s store w prior name place goal u)
    (hskeleton : ∀ q, v.tree.skeleton q = u.tree.skeleton q) (hhere : v.here = u.here)
    (hkeep : ∀ q, u.tree.get? q ≠ none → v.tree.get? q = u.tree.get? q)
    (hnew : ∀ q, u.tree.get? q = none → v.tree.get? q ≠ none →
      u.tree.walk false u.here s.path = .ok q ∨ ∃ r base n, q = r ++ [tempName base n]) :
    Saved s store w prior name place goal v := by
  obtain ⟨mode, changed, hfile⟩ := h.file
  refine ⟨h.lands.of_skeleton hskeleton hhere, ⟨mode, changed, ?_⟩,
    h.backup.of_skeleton hskeleton hhere, ?_, h.accounted.frame hskeleton hhere hnew⟩
  · rw [hkeep goal (by simp [hfile]), hfile]
  · rw [hkeep place (by simp [h.backupFile]), h.backupFile]

theorem Holds.of_alike (h : Holds x p prior) (hv : x.Alike v) : Holds v p prior := by
  cases prior with
  | none =>
    intro q hq
    rw [hv.1, hv.2] at hq
    rw [hv.1, h q hq]
  | some bytes => exact (hv.read_eq p).trans h

theorem BackedUp.of_alike {content : Bytes} (h : BackedUp store w x name content)
    (hv : x.Alike v) : BackedUp store w v name content := by
  obtain ⟨place, hlands, hfresh, hfile⟩ := h
  exact ⟨place, hv.lands hlands, hfresh, by rw [hv.1, hfile]⟩

theorem Observed.of_alike (h : Observed s store w name x) (hv : x.Alike v) :
    Observed s store w name v := by
  have hread := hv.read_eq s.path
  refine ⟨?_, fun hcontent => (h.backed (hread ▸ hcontent)).of_alike hv, ?_⟩
  · rcases h.content with hholds | hcontent
    · exact .inl (hholds.of_alike hv)
    · exact .inr (hread.trans hcontent)
  · exact h.accounted.frame (fun q => by rw [hv.1]) hv.2 fun q hnone hthere =>
      absurd hnone (hv.1 ▸ hthere)

theorem Replaceable.holds (hp : Replaceable w p) : Holds w p (held w p) := by
  unfold held
  rcases hread : w.read p with f | bytes
  · intro q hq
    rcases Tree.skeleton_eq_none_iff.mp (hp.leaf q hq) with hnone | ⟨_, _, _, hfile⟩
    · exact hnone
    · rw [World.Lands.read_file ⟨hq, hp.leaf q hq⟩ hfile] at hread
      cases hread
  · exact hread

private theorem before_observed (hp : Replaceable w s.path) (hne : held w s.path ≠ some s.content) :
    Observed s store w name w :=
  .of_holds hp.holds hne fun _ _ hnone hthere => absurd hnone hthere

section
variable (hp : Replaceable w s.path) (backs : s.Backs store w prior name place)
  (apart : Apart w s.path place) (hw : w.Sound)
include hp backs apart

private theorem copying_observed (hne : held w s.path ≠ some s.content) (content : Bytes) :
    Observed s store w name (w.withFile place content) := by
  have hset : w.tree.Sets place _ (w.withFile place content).tree :=
    Tree.put_sets backs.slot.lands.ne_nil _
  have hholds := (withFile_faces hp backs apart content).holds
  rw [← backs.prior.held_eq] at hholds
  refine .of_holds hholds hne fun folder last hnew hthere _ => ?_
  by_cases hplace : folder ++ [last] = place
  · exact .inr (.inl (hplace ▸ (backs.slot.lands.at_put _ _ _).walk))
  · exact absurd ((hset.other hplace).trans hnew) hthere

include hw

theorem written_saved {u : World} (replaces : (s.stored w prior place).Replaces s.path u goal mode) :
    Saved s store w prior name place goal (s.written u goal mode) := by
  have hlands := replaces.lands (backs.sound hw)
    (hp.steady.of_skeleton backs.skeleton rfl)
  have hset : u.tree.Sets goal _ (s.written u goal mode).tree := Tree.put_sets hlands.ne_nil _
  have hskeleton (q : Place) : (s.written u goal mode).tree.skeleton q = u.tree.skeleton q :=
    hlands.put_file _ _ _ q
  obtain ⟨hfile, hbackup⟩ := backs.dug replaces.dug
  have hne : goal ≠ place := ((dug_faces hp backs apart hw replaces.dug).ends goal replaces.walk).1
  refine ⟨hlands.of_skeleton hskeleton rfl, ⟨_, _, hset.self⟩, hbackup.of_skeleton hskeleton rfl, ?_,
    (backs.dug_accounted replaces.dug).frame hskeleton rfl fun q hnone hthere => ?_⟩
  · rw [hset.other (Ne.symm hne), hfile]
  · by_cases hq : q = goal
    · exact .inl (hq ▸ replaces.walk)
    · exact absurd ((hset.other hq).trans hnone) hthere

section
variable {r : Place} {n : Nat} (hdug : (s.stored w prior place).Dug s.path.parent u)
  (vacant : u.tree.get? (r ++ [tempName s.path.name n]) = none)
include hdug vacant

theorem temp_faces (content : Bytes) (mode : Nat) :
    Faces (FileTask.tempIn u s.path r n content mode) s.path place prior := by
  have hset : u.tree.Sets _ _ (FileTask.tempIn u s.path r n content mode).tree :=
    Tree.put_sets (by simp) _
  have hskeleton := hset.skeleton_eq (Tree.skeleton_of_vacant vacant)
    (Tree.skeleton_of_file hset.self)
  have hfaces := dug_faces hp backs apart hw hdug
  exact hfaces.frame hskeleton rfl fun q hq => hset.other
    (World.Lands.ne_temp ⟨hq, (hfaces.ends q hq).2.skeleton⟩ (hdug.sound (backs.sound hw)) r n)

private theorem temp_observed (hne : held w s.path ≠ some s.content) (content : Bytes) (mode : Nat) :
    Observed s store w name (FileTask.tempIn u s.path r n content mode) := by
  have hset : u.tree.Sets _ _ (FileTask.tempIn u s.path r n content mode).tree :=
    Tree.put_sets (by simp) _
  have hskeleton := hset.skeleton_eq (Tree.skeleton_of_vacant vacant)
    (Tree.skeleton_of_file hset.self)
  have hfaces := temp_faces hp backs apart hw hdug vacant content mode
  refine .of_holds (backs.prior.held_eq ▸ hfaces.holds) hne
    ((backs.dug_accounted hdug).frame hskeleton rfl fun q hnone hthere => .inr ?_)
  by_cases hq : q = r ++ [tempName s.path.name n]
  · exact ⟨r, _, n, hq⟩
  · exact absurd ((hset.other hq).trans hnone) hthere

end

private theorem replacing_observed (hne : held w s.path ≠ some s.content)
    (h : (s.stored w prior place).Replacing s.path s.content x) : Observed s store w name x := by
  cases h with
  | dug hdug =>
    refine .of_holds ?_ hne (backs.dug_accounted hdug)
    exact backs.prior.held_eq ▸ (dug_faces hp backs apart hw hdug).holds
  | temp hdug vacant => exact temp_observed hp backs apart hw hdug vacant hne _ _
  | done replaces => exact (written_saved hp backs apart hw replaces).observed backs

theorem restored_faces {u : World}
    (replaces : (s.stored w prior place).Replaces s.path u goal mode) (hx : x.here = u.here) :
    Faces { x with tree := u.tree.putBack goal mode prior } s.path place prior := by
  have hlands := replaces.lands (backs.sound hw) (hp.steady.of_skeleton backs.skeleton rfl)
  have hset := Tree.putBack_sets (t := u.tree) hlands.ne_nil mode prior
  have hkeeps := Keeps.of_putBack hset
  have hskeleton := hset.skeleton_eq hlands.leaf hkeeps.skeleton
  have hfaces := dug_faces hp backs apart hw replaces.dug
  refine ⟨fun q hq => ?_, fun hne => ?_⟩
  · have hwalk := Tree.walk_mono (.of_eq fun q => (hskeleton q).symm) (hx ▸ hq)
    obtain rfl : q = goal := Except.ok.inj (hwalk.symm.trans replaces.walk)
    exact ⟨(hfaces.ends q hwalk).1, hkeeps⟩
  · obtain ⟨q, hq⟩ := hfaces.leads hne
    exact ⟨q, hx ▸ Tree.walk_mono (.of_eq hskeleton) hq⟩

theorem restored_backedUp {u : World}
    (replaces : (s.stored w prior place).Replaces s.path u goal mode) (hx : x.here = u.here) :
    BackedUp store w { x with tree := u.tree.putBack goal mode prior } name (prior.getD []) := by
  have hlands := replaces.lands (backs.sound hw) (hp.steady.of_skeleton backs.skeleton rfl)
  have hset := Tree.putBack_sets (t := u.tree) hlands.ne_nil mode prior
  have hskeleton := hset.skeleton_eq hlands.leaf (Keeps.of_putBack hset).skeleton
  obtain ⟨hfile, hbackup⟩ := backs.dug replaces.dug
  have hne := ((dug_faces hp backs apart hw replaces.dug).ends goal replaces.walk).1
  refine ⟨place, hbackup.of_skeleton hskeleton hx, backs.slot.vacant, ?_⟩
  rw [hset.other (Ne.symm hne), hfile]

private theorem restored_observed (hne : held w s.path ≠ some s.content) {u : World}
    (replaces : (s.stored w prior place).Replaces s.path u goal mode) (hx : x.here = u.here) :
    Observed s store w name { x with tree := u.tree.putBack goal mode prior } := by
  have hlands := replaces.lands (backs.sound hw) (hp.steady.of_skeleton backs.skeleton rfl)
  have hset := Tree.putBack_sets (t := u.tree) hlands.ne_nil mode prior
  have hskeleton := hset.skeleton_eq hlands.leaf (Keeps.of_putBack hset).skeleton
  refine .of_holds ?_ hne ((backs.dug_accounted replaces.dug).frame hskeleton hx
    fun q hnone hthere => ?_)
  · rw [backs.prior.held_eq]
    exact (restored_faces hp backs apart hw replaces hx).holds
  · by_cases hq : q = goal
    · exact .inl (hq ▸ replaces.walk)
    · exact absurd ((hset.other hq).trans hnone) hthere

private theorem puttingBack_observed (hne : held w s.path ≠ some s.content) {u y : World}
    (replaces : (s.stored w prior place).Replaces s.path u goal mode)
    (saved : (s.written u goal mode).Alike x)
    (h : PuttingBack s.path x (u.tree.putBack goal mode prior) y) :
    Observed s store w name y := by
  have hsaved := (written_saved hp backs apart hw replaces).frame (v := x) (fun q => by rw [saved.1])
    saved.2 (fun q _ => by rw [saved.1]) fun q hnone hthere => absurd hnone (saved.1 ▸ hthere)
  cases h with
  | start => exact hsaved.observed backs
  | @temp r n content mode vacant =>
    have hset : x.tree.Sets _ _ (FileTask.tempIn x s.path r n content mode).tree :=
      Tree.put_sets (by simp) _
    have hskeleton := hset.skeleton_eq (Tree.skeleton_of_vacant vacant)
      (Tree.skeleton_of_file hset.self)
    refine (hsaved.frame hskeleton rfl (fun q hq => hset.other ?_)
      fun q hnone hthere => .inr ?_).observed backs
    · rintro rfl
      exact hq vacant
    · by_cases hq : q = r ++ [tempName s.path.name n]
      · exact ⟨r, _, n, hq⟩
      · exact absurd ((hset.other hq).trans hnone) hthere
  | done => exact restored_observed hp backs apart hw hne replaces saved.2

end

/-- Whenever a save is looked at, an observer finds what `Observed` says. -/
theorem phase_observed (hw : w.Sound) (hp : Saveable store w s.path)
    (hne : held w s.path ≠ some s.content) (h : s.Phase store w prior name place v) :
    Observed s store w name v := by
  have hrepl := hp.replaceable
  cases h with
  | before hv => exact (before_observed hrepl hne).of_alike hv
  | copying k backs hv =>
    exact (copying_observed hrepl backs (hp.apart hw backs) hne _).of_alike hv
  | replacing backs replacing hv =>
    exact (replacing_observed hrepl backs (hp.apart hw backs) hw hne replacing).of_alike hv
  | puttingBack backs replaces saved puttingBack hv =>
    exact (puttingBack_observed hrepl backs (hp.apart hw backs) hw hne replaces saved
      puttingBack).of_alike hv

end ConfigSteward.Save
