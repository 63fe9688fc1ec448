import ConfigSteward.Proofs.Backup.Counting
import ConfigSteward.Proofs.Backup.Snapshots

/-!
# A store refines a map of snapshots

Every call on a store whose folder holds nothing but backups answers as the map of its snapshots
does, and leaves a store of that kind, over runs of any length.
-/
namespace ConfigSteward

open Plan

namespace Store

variable {s : Store} {w v : World} {name artifact : String} {bytes content : Bytes} {mode : Nat}
  {changed : Changed} {e : Snapshot} {node : Option Node}

/-- The owner and the time that a listing gives are those of the snapshot. -/
theorem ownerAndTime_eq (h : Snapshot.ofFile? name bytes = some e) (changed : Changed) :
    ownerAndTime name changed = .ok (e.artifact, some e.created) := by
  simp only [Snapshot.ofFile?, Option.bind_eq_bind, Option.bind_eq_some_iff, Option.pure_def,
    Option.some.injEq] at h
  obtain ⟨parts, hparse, created, hread, rfl⟩ := h
  rcases hstamp : Stamp.readChars parts.stamp with f | c
  · rw [hstamp] at hread
    cases hread
  · rw [hstamp] at hread
    cases hread
    simp only [ownerAndTime, hparse, hstamp]
    rfl

private theorem listsBefore_trans (a b c : Backup) (hab : listsBefore a b = true)
    (hbc : listsBefore b c = true) : listsBefore a c = true := by
  simp only [listsBefore, decide_eq_true_eq] at hab hbc ⊢
  exact String.le_trans hbc hab

private theorem listsBefore_total (a b : Backup) : (listsBefore a b || listsBefore b a) = true := by
  simp only [listsBefore, Bool.or_eq_true, decide_eq_true_eq]
  exact String.le_total b.name a.name

/-- A listing of distinct names descends. -/
theorem descends_of_nodup {bs : List Backup} (h : (bs.map (·.name)).Nodup) :
    (bs.mergeSort listsBefore).Pairwise fun a b => b.name < a.name := by
  have hsorted := List.pairwise_mergeSort listsBefore_trans listsBefore_total bs
  have hnodup : ((bs.mergeSort listsBefore).map (·.name)).Nodup :=
    ((bs.mergeSort_perm listsBefore).map _).nodup_iff.mpr h
  refine (hsorted.and (List.pairwise_map.mp hnodup)).imp fun ⟨hle, hne⟩ => ?_
  by_contra hlt
  exact hne (String.le_antisymm (String.not_lt.mp hlt) (of_decide_eq_true hle))

/-- The map after the entry of one name changed. -/
theorem snapshots_of_sets {t t' : Tree} (hset : t.Sets (s.folder ++ [name]) node t') :
    s.snapshots t' = Function.update (s.snapshots t) name (s.snapshots t' name) := by
  funext other
  by_cases hother : other = name
  · subst hother
    rw [Function.update_self]
  · rw [Function.update_of_ne hother, snapshots, snapshots,
      Tree.bytesAt_congr (hset.other (by simpa using hother))]

private theorem leadsIn_far (hfar : s.Far name) (w : World) (test : Status → Bool) :
    FileTask.leadsIn w (s.pathOf name) test = .error ⟨.nameTooLong, (s.pathOf name).text, none⟩ := by
  have hwalk : w.tree.walk true w.here (s.pathOf name) = .error .nameTooLong := by
    exact if_pos hfar
  rw [FileTask.leadsIn, World.look, World.onNode, hwalk]
  rfl

/-- A call keeps the store and does to its files what it does to the map of snapshots. -/
def Refines (s : Store) (w : World) (c : Call) (r : Except Failure Answer) (v : World) : Prop :=
  s.Keeps v ∧ (s.snapshots w.tree).Answers c r (s.snapshots v.tree)

namespace Keeps

section
variable (h : s.Keeps w)
include h

private theorem snapshots_of_file
    (hget : w.tree.get? (s.folder ++ [name]) = some (.file bytes mode changed)) :
    ∃ e, s.snapshots w.tree name = some e ∧ e.bytes = bytes := by
  obtain ⟨e, he, hbytes⟩ := (h.telling name (by simp [hget])).ofFile? bytes
  refine ⟨e, ?_, hbytes⟩
  rw [snapshots, Tree.bytesAt_eq_some_iff.mpr ⟨mode, changed, hget⟩, Option.bind_some, he]

private theorem get?_eq_none_or_file (name : String) : w.tree.get? (s.folder ++ [name]) = none ∨
    ∃ bytes mode changed, w.tree.get? (s.folder ++ [name]) = some (.file bytes mode changed) := by
  rcases hget : w.tree.get? (s.folder ++ [name]) with _ | node
  · exact .inl rfl
  · obtain ⟨bytes, mode, changed, rfl⟩ := h.flat.files name node hget
    exact .inr ⟨bytes, mode, changed, rfl⟩

theorem snapshots_eq_none_iff :
    s.snapshots w.tree name = none ↔ w.tree.get? (s.folder ++ [name]) = none := by
  rcases h.get?_eq_none_or_file name with hget | ⟨bytes, mode, changed, hget⟩
  · simp [snapshots, Tree.bytesAt, hget]
  · obtain ⟨e, he, -⟩ := h.snapshots_of_file hget
    simp [he, hget]

private theorem snapshots_of_child (hname : name ∈ w.tree.children s.folder) :
    ∃ e, s.snapshots w.tree name = some e :=
  Option.ne_none_iff_exists'.mp (h.snapshots_eq_none_iff.not.mpr (Tree.mem_children.mp hname))

private theorem ofFile?_of_snapshots (he : s.snapshots w.tree name = some e) :
    Snapshot.ofFile? name e.bytes = some e := by
  obtain ⟨bytes, hbytes, hfile⟩ := Option.bind_eq_some_iff.mp he
  have hsame : e.bytes = bytes := by
    obtain ⟨mode, changed, hget⟩ := Tree.bytesAt_eq_some_iff.mp hbytes
    obtain ⟨e', he', rfl⟩ := h.snapshots_of_file hget
    rw [Option.some.inj (he.symm.trans he')]
  rw [hsame, hfile]

/-- A snapshot is in a file of its name. -/
theorem file_of_snapshots (he : s.snapshots w.tree name = some e) :
    ∃ mode changed, w.tree.get? (s.folder ++ [name]) = some (.file e.bytes mode changed) := by
  rcases h.get?_eq_none_or_file name with hget | ⟨bytes, mode, changed, hget⟩
  · rw [h.snapshots_eq_none_iff.mpr hget] at he
    cases he
  · obtain ⟨e', he', rfl⟩ := h.snapshots_of_file hget
    cases he.symm.trans he'
    exact ⟨mode, changed, hget⟩

theorem lands (hname : Name.Safe name) (hfits : s.Fits name) :
    w.Lands (s.pathOf name) (s.folder ++ [name]) :=
  h.flat.lands ⟨hname.noUp, hname.utf8ByteSize_eq ▸ hfits.short⟩ (Nat.le_of_not_lt hfits.near)

private theorem resolve_pathOf (hname : Name.Safe name) :
    w.tree.resolve w.here (s.pathOf name) = .ok (s.folder ++ [name]) := by
  refine h.sound.tree.resolve_entry h.flat.there ?_ (fun target hget => ?_) w.here
  · simpa [h.straight] using Ne.symm hname.noUp
  · obtain ⟨bytes, mode, changed, hfile⟩ := h.flat.files name _ hget
    cases hfile

theorem of_alike (halike : w.Alike v) (hnoted : ∀ e ∈ v.noted, e.2.Valid ∧ 1000 ≤ e.2.year) :
    s.Keeps v :=
  ⟨halike.sound h.sound, halike.1 ▸ h.distinct, h.straight, h.flat.of_alike halike,
    by rw [halike.1]; exact h.telling, hnoted⟩

/-- A file is written or taken away under a name that tells. -/
theorem of_sets (hset : w.tree.Sets (s.folder ++ [name]) node v.tree) (hhere : v.here = w.here)
    (hdistinct : v.tree.Distinct) (hnode : ∀ n, node = some n → Telling name ∧
      ∃ bytes mode changed, n = .file bytes mode changed)
    (hnoted : ∀ e ∈ v.noted, e.2.Valid ∧ 1000 ≤ e.2.year) : s.Keeps v := by
  have hflat := h.flat.of_sets hset hhere fun n hn => (hnode n hn).2
  refine ⟨⟨?_, ?_⟩, hdistinct, h.straight, hflat, fun other hother => ?_, hnoted⟩
  · refine hset.sound h.sound.tree ?_ (by simpa using h.flat.there)
    intro hfolder
    obtain ⟨bytes, mode, changed, hfile⟩ := h.flat.files name _ hfolder
    cases hfile
  · rw [hhere, hset.other, h.sound.here]
    rintro heq
    obtain ⟨bytes, mode, changed, hfile⟩ := h.flat.files name _ (heq ▸ h.sound.here)
    cases hfile
  · by_cases heq : other = name
    · rw [heq, hset.self] at hother
      obtain ⟨n, hn⟩ := Option.ne_none_iff_exists'.mp hother
      exact heq ▸ (hnode n hn).1
    · rw [hset.other (by simpa using heq)] at hother
      exact h.telling other hother

end

/-! ### Looking up, reading and taking away -/

section
variable (h : s.Keeps w)
include h

theorem leadsIn_eq (hname : Name.Safe name) (hfits : s.Fits name) :
    FileTask.leadsIn w (s.pathOf name) (fun status => status.kind = .file)
      = .ok (s.snapshots w.tree name).isSome := by
  have hlands := h.lands hname hfits
  rcases h.get?_eq_none_or_file name with hget | ⟨bytes, mode, changed, hget⟩
  · rw [h.snapshots_eq_none_iff.mpr hget, FileTask.leadsIn, hlands.look_vacant hget]
    rfl
  · obtain ⟨e, he, -⟩ := h.snapshots_of_file hget
    rw [he, FileTask.leadsIn, hlands.look_file hget]
    rfl

/-- Looking a name up finds its path as the map finds its snapshot. -/
theorem does_find (hfits : Name.IsBackup name → s.Fits name) :
    (s.find name).run.Does (· = w) w fun r v es => v = w ∧ es = [] ∧
      ∃ found, (s.snapshots w.tree).Finds name found ∧ r = found.map fun _ => s.pathOf name := by
  rw [find]
  by_cases hname : (Name.isSafe name && Name.endsIn Name.backupSuffix name) = true
  · obtain ⟨hsafe, hends⟩ := Bool.and_eq_true_iff.mp hname
    have hisBackup : Name.IsBackup name := by
      refine ⟨.of_isSafe hsafe ?_, hends⟩
      rw [Name.getLast?_of_endsIn hends (by decide)]
      decide
    simp only [hname, if_true]
    refine does_andThen.mpr (Task.does_resolve_eq rfl (fun place hplace => ?_) fun place hplace => ?_)
    · rw [h.resolve_pathOf hisBackup.1] at hplace
      cases hplace
      simp only [List.dropLast_concat, if_true]
      refine does_andThen.mpr (Task.does_ofFile.mpr (FileTask.does_leads.mpr ⟨rfl, ?_⟩))
      have hleads := h.leadsIn_eq hisBackup.1 (hfits hisBackup)
      rw [show (s.folder ++ [name] : Place).path = s.pathOf name from rfl, hleads]
      rcases he : s.snapshots w.tree name with _ | e
      · exact does_throw.mpr ⟨rfl, rfl, rfl, _, .missing hisBackup he, rfl⟩
      · exact does_pure.mpr ⟨rfl, rfl, rfl, _, .found hisBackup he, rfl⟩
    · rw [h.resolve_pathOf hisBackup.1] at hplace
      cases hplace
  · have hinvalid : ¬ Name.IsBackup name := fun hbackup => hname (by
      rw [hbackup.1.isSafe, hbackup.2]
      rfl)
    simp only [hname]
    exact Task.does_refuse.mpr ⟨rfl, rfl, rfl, _, .invalid hinvalid, rfl⟩

theorem does_get (hfits : Name.IsBackup name → s.Fits name) :
    (s.call (.get name)).run.Does (fun _ => True) w fun r v _ => s.Refines w (.get name) r v := by
  have hget : (s.get name).run.Does (· = w) w fun r v es => v = w ∧
      ∃ found, (s.snapshots w.tree).Finds name found ∧ r = found.map Snapshot.bytes := by
    rw [get]
    refine does_andThen.mpr ((h.does_find hfits).mono (fun _ hv => hv) ?_)
    rintro r v es ⟨rfl, rfl, found, hfinds, rfl⟩
    rcases hfound : found with failure | e
    · exact ⟨rfl, rfl, found, hfinds, by rw [hfound]; rfl⟩
    · rw [hfound] at hfinds
      cases hfinds with
      | found hname he =>
        obtain ⟨mode, changed, hfile⟩ := h.file_of_snapshots he
        have hread := (h.lands hname.1 (hfits hname)).read_file hfile
        refine Task.does_ofFileOr.mpr (FileTask.does_read.mpr ⟨rfl, rfl, _, .found hname he, ?_⟩)
        rw [hread]
        rfl
  refine does_andThen.mpr (hget.mono (fun _ _ => trivial) ?_)
  rintro r v es ⟨rfl, found, hfinds, rfl⟩
  have hanswers := Snapshots.Answers.gets hfinds
  rcases found with failure | e
  · exact ⟨trivial, h, hanswers⟩
  · exact does_pure.mpr ⟨trivial, h, hanswers⟩

theorem does_delete (hfits : Name.IsBackup name → s.Fits name) :
    (s.call (.delete name)).run.Does (fun _ => True) w fun r v _ =>
      s.Refines w (.delete name) r v := by
  have hdelete : (s.delete name).run.Does (fun _ => True) w fun r v _ =>
      (∃ failure, r = .error failure ∧ v = w ∧
        (s.snapshots w.tree).Finds name (.error failure)) ∨
      ∃ e, r = .ok () ∧ v = { w with tree := w.tree.remove (s.folder ++ [name]) } ∧
        (s.snapshots w.tree).Finds name (.ok e) := by
    rw [delete]
    refine does_andThen.mpr ((h.does_find hfits).mono (fun _ _ => trivial) ?_)
    rintro r v es ⟨rfl, rfl, found, hfinds, rfl⟩
    rcases found with failure | e
    · exact ⟨trivial, .inl ⟨failure, rfl, rfl, hfinds⟩⟩
    · cases hfinds with
      | found hname he =>
        obtain ⟨mode, changed, hfile⟩ := h.file_of_snapshots he
        have hunlink := (h.lands hname.1 (hfits hname)).unlink_file hfile
        refine does_andThen.mpr (Task.does_attemptFile.mpr (FileTask.does_unlink.mpr
          ⟨trivial, trivial, ?_⟩))
        rw [hunlink]
        exact does_pure.mpr ⟨trivial, .inr ⟨e, rfl, rfl, .found hname he⟩⟩
  refine does_andThen.mpr (hdelete.mono (fun _ _ => trivial) ?_)
  rintro r v es (⟨failure, rfl, rfl, hfinds⟩ | ⟨e, rfl, rfl, hfinds⟩)
  · exact ⟨trivial, h, .misses hfinds⟩
  · have hset := Tree.remove_sets (t := w.tree) (p := s.folder ++ [name]) (by simp)
    have hkeeps : s.Keeps { w with tree := w.tree.remove (s.folder ++ [name]) } :=
      h.of_sets hset rfl (h.distinct.remove _) (fun _ hnode => by cases hnode) h.noted
    refine does_pure.mpr ⟨trivial, hkeeps, ?_⟩
    rw [snapshots_of_sets hset, hkeeps.snapshots_eq_none_iff.mpr hset.self]
    exact .deletes hfinds

end

/-! ### Making a backup -/

section
variable (h : s.Keeps w)
include h

/-- The reading for a backup is a second of the calendar whose year has four digits. -/
theorem readingFor_valid (hnow : 1000 ≤ (Civil.ofSeconds (w.clock / 1000000)).year)
    (hnow' : (Civil.ofSeconds (w.clock / 1000000)).year ≤ 9999) (artifact : String) :
    (w.readingFor artifact).Valid ∧ 1000 ≤ (w.readingFor artifact).year := by
  have hclock : (Civil.ofSeconds (w.clock / 1000000)).Valid := Civil.ofSeconds_valid hnow'
  unfold World.readingFor
  split
  · next last hlatest =>
    obtain ⟨entry, hfind, rfl⟩ := Option.map_eq_some_iff.mp hlatest
    obtain ⟨hvalid, hyear⟩ := h.noted entry (List.mem_of_find?_eq_some hfind)
    unfold Civil.latest
    split
    · exact ⟨hvalid, hyear⟩
    · exact ⟨hclock, hnow⟩
  · exact ⟨hclock, hnow⟩

theorem noting (hreading : (w.readingFor artifact).Valid ∧ 1000 ≤ (w.readingFor artifact).year) :
    ∀ e ∈ (w.noting artifact).noted, e.2.Valid ∧ 1000 ≤ e.2.year := by
  intro e he
  rcases List.mem_cons.mp he with rfl | he
  · exact hreading
  · exact h.noted e (List.mem_filter.mp he).1

/-- A new file of a backup is a new snapshot under a fresh name. -/
theorem adds {place : Place} (hsafe : Name.Safe artifact)
    (hreading : (w.readingFor artifact).Valid ∧ 1000 ≤ (w.readingFor artifact).year)
    (hslot : s.Slot w artifact name place) (content : Bytes) :
    s.Keeps ((w.noting artifact).withFile place content) ∧ s.snapshots w.tree name = none ∧
      s.snapshots ((w.noting artifact).withFile place content).tree = Function.update
        (s.snapshots w.tree) name (some ⟨artifact, w.readingFor artifact, content⟩) := by
  obtain ⟨folder, hwalk, -, hplain, hplace⟩ := hslot.lands.split h.sound
  rw [pathOf, Path.parent_child, h.flat.walk] at hwalk
  rw [pathOf, Path.name_child] at hplain hplace
  cases hwalk
  subst hplace
  obtain ⟨counter, hcounter, hname⟩ := hslot.named
  have hc : counter < 100 := Nat.lt_succ_of_le hcounter
  have hsafe' : Name.Safe name := hname ▸ Name.safe_writeBackup hsafe (hreading.1.stampable hreading.2) hc
  have hshort : name.length ≤ longestName := hsafe'.utf8ByteSize_eq ▸ hplain.2
  have htelling : Telling name := by
    rw [hname] at hshort ⊢
    exact telling_writeBackup hsafe hreading.1 hreading.2 hc hshort
  have hnew : Snapshot.ofFile? name content = some ⟨artifact, w.readingFor artifact, content⟩ := by
    rw [hname]
    exact ofFile?_writeBackup hsafe hreading.1 hreading.2 hc content
  have hset : w.tree.Sets (s.folder ++ [name]) _
      ((w.noting artifact).withFile (s.folder ++ [name]) content).tree :=
    Tree.put_sets hslot.lands.ne_nil (.file content World.plainMode .lately)
  have hnoting := h.of_alike (w.noting_alike artifact) (h.noting hreading)
  refine ⟨hnoting.of_sets hset rfl (hnoting.distinct.put _ _) (fun n hn => ?_) hnoting.noted,
    h.snapshots_eq_none_iff.mpr hslot.vacant, ?_⟩
  · cases hn
    exact ⟨htelling, _, _, _, rfl⟩
  · have hbytes := Tree.bytesAt_eq_some_iff.mpr ⟨_, _, hset.self⟩
    have hsnapshot : s.snapshots ((w.noting artifact).withFile (s.folder ++ [name]) content).tree name
        = some ⟨artifact, w.readingFor artifact, content⟩ := by
      rw [snapshots, hbytes, Option.bind_some, hnew]
    rw [snapshots_of_sets hset, hsnapshot]

end

/-! ### Listing -/

section
variable (h : s.Keeps w) {wanted : Option String}
include h

/-- An entry is described by its snapshot. -/
theorem does_describe (he : s.snapshots w.tree name = some e) (hnear : ¬ s.Far name) :
    (s.describe wanted name).run.Does (· = w) w fun r v es => v = w ∧ es = [] ∧
      ∃ b?, r = .ok b? ∧ ∀ b, b? = some b ↔ e.Wanted wanted ∧ b = e.listed name := by
  obtain ⟨mode, changed, hfile⟩ := h.file_of_snapshots he
  obtain ⟨⟨hsafe, hends⟩, hshort, -⟩ := h.telling name (by simp [hfile])
  have hfits : s.Fits name := ⟨hshort, hnear⟩
  rw [describe, if_pos hends]
  refine does_andThen.mpr (Task.does_ofFile.mpr (FileTask.does_leads.mpr ⟨rfl, ?_⟩))
  rw [h.leadsIn_eq hsafe hfits, he]
  refine does_andThen.mpr (Task.does_ofFile.mpr (FileTask.does_look.mpr ⟨rfl, ?_⟩))
  rw [(h.lands hsafe hfits).look_file hfile]
  have howner := ownerAndTime_eq (h.ofFile?_of_snapshots he) changed
  simp only [Except.mapError, howner]
  refine does_pure.mpr ⟨rfl, rfl, rfl, _, rfl, fun b => ?_⟩
  cases wanted with
  | none => simp [Snapshot.Wanted, Snapshot.listed, eq_comm]
  | some artifact =>
    by_cases hartifact : artifact = "" ∨ artifact = e.artifact
    · have hno : (artifact ≠ "" && e.artifact ≠ artifact) = false := by
        rcases hartifact with rfl | rfl <;> simp
      simp only [hno]
      simp [Snapshot.Wanted, Snapshot.listed, hartifact, eq_comm]
    · have hyes : (artifact ≠ "" && e.artifact ≠ artifact) = true := by
        rw [not_or] at hartifact
        simp [hartifact.1, Ne.symm hartifact.2]
      simp only [hyes]
      simp [Snapshot.Wanted, hartifact]

theorem does_describeAll {names : List String}
    (hnames : ∀ name ∈ names, ∃ e, s.snapshots w.tree name = some e)
    (hnear : ∀ name ∈ names, ¬ s.Far name) :
    (s.describeAll wanted names).run.Does (· = w) w fun r v es => v = w ∧ es = [] ∧
      ∃ bs, r = .ok bs ∧ (bs.map (·.name)).Sublist names ∧ ∀ b, b ∈ bs ↔ b.name ∈ names ∧
        ∃ e, s.snapshots w.tree b.name = some e ∧ e.Wanted wanted ∧ b = e.listed b.name := by
  induction names with
  | nil => exact does_pure.mpr ⟨rfl, rfl, rfl, [], rfl, .slnil, by simp⟩
  | cons name names ih =>
    rw [List.forall_mem_cons] at hnames hnear
    obtain ⟨⟨e, he⟩, hrest⟩ := hnames
    rw [describeAll]
    refine does_andThen.mpr ((h.does_describe he hnear.1).mono (fun _ hv => hv) ?_)
    rintro r v es ⟨rfl, rfl, b?, rfl, hb⟩
    have hentry (b : Backup) : b? = some b ↔ b.name = name ∧
        ∃ e', s.snapshots v.tree b.name = some e' ∧ e'.Wanted wanted ∧ b = e'.listed b.name := by
      rw [hb]
      constructor
      · rintro ⟨hwanted, rfl⟩
        exact ⟨rfl, e, he, hwanted, rfl⟩
      · rintro ⟨rfl, e', he', hwanted, hlisted⟩
        cases he.symm.trans he'
        exact ⟨hwanted, hlisted⟩
    have hothers := ih hrest hnear.2
    cases b? with
    | none =>
      refine hothers.mono (fun _ hv => hv) ?_
      rintro r v es ⟨rfl, rfl, bs, rfl, hsub, hmem⟩
      refine ⟨rfl, rfl, bs, rfl, hsub.cons _, fun b => ?_⟩
      rw [hmem, List.mem_cons, or_and_right, ← hentry]
      simp
    | some b =>
      refine does_andThen.mpr (hothers.mono (fun _ hv => hv) ?_)
      rintro r v es ⟨rfl, rfl, bs, rfl, hsub, hmem⟩
      refine does_pure.mpr ⟨rfl, rfl, rfl, b :: bs, rfl, ?_, fun b' => ?_⟩
      · rw [List.map_cons, ((hentry b).mp rfl).1]
        exact hsub.cons_cons _
      · rw [List.mem_cons, hmem, List.mem_cons, or_and_right, ← hentry, Option.some.injEq, eq_comm]

theorem does_list (hnear : ∀ name, s.snapshots w.tree name ≠ none → ¬ s.Far name) :
    (s.call (.list wanted)).run.Does (fun _ => True) w fun r v _ =>
      s.Refines w (.list wanted) r v := by
  have hnames : ∀ name ∈ w.tree.children s.folder, ∃ e, s.snapshots w.tree name = some e :=
    fun name hname => h.snapshots_of_child hname
  have hlist : (s.list wanted).run.Does (· = w) w fun r v _ => v = w ∧ ∃ bs, r = .ok bs ∧
      (bs.Pairwise fun a b => b.name < a.name) ∧ ∀ b, b ∈ bs ↔
        ∃ e, s.snapshots w.tree b.name = some e ∧ e.Wanted wanted ∧ b = e.listed b.name := by
    rw [list]
    refine does_andThen.mpr (Task.does_ofFileOr.mpr (FileTask.does_list.mpr ⟨rfl, ?_⟩))
    rw [h.flat.list_eq]
    have hnear' : ∀ name ∈ w.tree.children s.folder, ¬ s.Far name := fun name hname => by
      obtain ⟨e, he⟩ := hnames name hname
      exact hnear name (by simp [he])
    refine does_andThen.mpr ((h.does_describeAll hnames hnear').mono (fun _ hv => hv) ?_)
    rintro r v es ⟨rfl, rfl, bs, rfl, hsub, hmem⟩
    refine does_pure.mpr ⟨rfl, rfl, _, rfl, ?_, fun b => ?_⟩
    · exact descends_of_nodup ((h.distinct.nodup_children s.folder).sublist hsub)
    · rw [List.mem_mergeSort, hmem]
      refine and_iff_right_of_imp fun ⟨e, he, _⟩ => Tree.mem_children.mpr ?_
      exact h.snapshots_eq_none_iff.not.mp (by simp [he])
  refine does_andThen.mpr (hlist.mono (fun _ _ => trivial) ?_)
  rintro r v es ⟨rfl, bs, rfl, hdescends, hcomplete⟩
  exact does_pure.mpr ⟨trivial, h, .lists hdescends hcomplete⟩

end

/-! ### Paths that are too long -/

section
variable (h : s.Keeps w)
include h

/-- Where the path of a backup is too long, looking it up fails with a fault. -/
theorem does_find_far (hname : Name.IsBackup name) (hfar : s.Far name) :
    (s.find name).run.Does (· = w) w fun r v _ =>
      v = w ∧ r = .error (.fault ⟨.nameTooLong, (s.pathOf name).text, none⟩) := by
  have htest : (Name.isSafe name && Name.endsIn Name.backupSuffix name) = true := by
    rw [hname.1.isSafe, hname.2]
    rfl
  rw [find]
  simp only [htest, if_true]
  refine does_andThen.mpr (Task.does_resolve_eq rfl (fun place hplace => ?_) fun place hplace => ?_)
  · rw [h.resolve_pathOf hname.1] at hplace
    cases hplace
    simp only [List.dropLast_concat, if_true]
    refine does_andThen.mpr (Task.does_ofFile.mpr (FileTask.does_leads.mpr ⟨rfl, ?_⟩))
    rw [show (s.folder ++ [name] : Place).path = s.pathOf name from rfl, leadsIn_far hfar]
    exact ⟨rfl, rfl, rfl⟩
  · rw [h.resolve_pathOf hname.1] at hplace
    cases hplace

theorem does_describe_far {wanted : Option String} (he : s.snapshots w.tree name = some e)
    (hfar : s.Far name) :
    (s.describe wanted name).run.Does (· = w) w fun r v _ =>
      v = w ∧ r = .error (.fault ⟨.nameTooLong, (s.pathOf name).text, none⟩) := by
  obtain ⟨mode, changed, hfile⟩ := h.file_of_snapshots he
  rw [describe, if_pos (h.telling name (by simp [hfile])).isBackup.2]
  refine does_andThen.mpr (Task.does_ofFile.mpr (FileTask.does_leads.mpr ⟨rfl, ?_⟩))
  rw [leadsIn_far hfar]
  exact ⟨rfl, rfl, rfl⟩

/-- A listing stops with a fault at the first entry whose path is too long. -/
theorem does_describeAll_far {wanted : Option String} {names : List String}
    (hnames : ∀ name ∈ names, ∃ e, s.snapshots w.tree name = some e)
    (hfar : ∃ name ∈ names, s.Far name) :
    (s.describeAll wanted names).run.Does (· = w) w fun r v _ =>
      v = w ∧ ∃ f, r = .error (.fault f) := by
  induction names with
  | nil =>
    obtain ⟨name, hname, -⟩ := hfar
    cases hname
  | cons name names ih =>
    rw [List.forall_mem_cons] at hnames
    obtain ⟨⟨e, he⟩, hrest⟩ := hnames
    rw [describeAll]
    by_cases hfirst : s.Far name
    · refine does_andThen.mpr ((h.does_describe_far he hfirst).mono (fun _ hv => hv) ?_)
      rintro r v es ⟨rfl, rfl⟩
      exact ⟨rfl, rfl, _, rfl⟩
    have hlater : ∃ name ∈ names, s.Far name := by
      obtain ⟨other, hother, hfar⟩ := hfar
      rcases List.mem_cons.mp hother with rfl | hother
      · exact absurd hfar hfirst
      · exact ⟨other, hother, hfar⟩
    refine does_andThen.mpr ((h.does_describe he hfirst).mono (fun _ hv => hv) ?_)
    rintro r v es ⟨rfl, -, b?, rfl, -⟩
    cases b? with
    | none => exact (ih hrest hlater).mono (fun _ hv => hv) fun _ _ _ hr => hr
    | some b =>
      refine does_andThen.mpr ((ih hrest hlater).mono (fun _ hv => hv) ?_)
      rintro r v es ⟨rfl, f, rfl⟩
      exact ⟨rfl, rfl, f, rfl⟩

/-- A call that meets too long a path fails with a fault and leaves all as it was. -/
theorem does_strays {c : Call} (hc : s.Strays (s.snapshots w.tree) c) :
    (s.call c).run.Does (fun _ => True) w fun r v _ => v = w ∧ ∃ f, r = .error (.fault f) := by
  cases c with
  | create => exact hc.elim
  | get name =>
    refine does_andThen.mpr (does_andThen.mpr ((h.does_find_far hc.1 hc.2).mono
      (fun _ _ => trivial) ?_))
    rintro r v es ⟨rfl, rfl⟩
    exact ⟨trivial, trivial, rfl, _, rfl⟩
  | delete name =>
    refine does_andThen.mpr (does_andThen.mpr ((h.does_find_far hc.1 hc.2).mono
      (fun _ _ => trivial) ?_))
    rintro r v es ⟨rfl, rfl⟩
    exact ⟨trivial, trivial, rfl, _, rfl⟩
  | list wanted =>
    obtain ⟨name, hthere, hfar⟩ := hc
    have hnames : ∀ name ∈ w.tree.children s.folder, ∃ e, s.snapshots w.tree name = some e :=
      fun name hname => h.snapshots_of_child hname
    have hchild : name ∈ w.tree.children s.folder :=
      Tree.mem_children.mpr (h.snapshots_eq_none_iff.not.mp hthere)
    refine does_andThen.mpr (does_andThen.mpr (Task.does_ofFileOr.mpr
      (FileTask.does_list.mpr ⟨trivial, ?_⟩)))
    rw [h.flat.list_eq]
    refine does_andThen.mpr ((h.does_describeAll_far hnames ⟨name, hchild, hfar⟩).mono
      (fun _ _ => trivial) ?_)
    rintro r v es ⟨rfl, f, rfl⟩
    exact ⟨trivial, trivial, rfl, f, rfl⟩

end

end Keeps

end Store
end ConfigSteward
