import ConfigSteward.Proofs.Backup.Folder
import ConfigSteward.Proofs.Backup.Runs
import ConfigSteward.Proofs.Site.Refusing
import ConfigSteward.Proofs.Time.Reading

/-!
# What a listing tells

A listing tells of the files in the folder whose names end as those of backups do, and of nothing
else that is there. It stops at an entry of such a name if the digits of the name name no second, if
the time that stands for them is out of range, or if a name on the way to the entry is too long.
-/
namespace ConfigSteward

open Plan

namespace Name

variable {name : String} {parts : BackupParts}

private theorem isStamp_of_parse? (h : parse? name = some parts) : isStamp parts.stamp = true :=
  (BackupParts.wellFormed_iff.mp (parse?_eq_some_iff.mp h).1).2.1

/-- The name has the form of a backup's, and its digits name no second. -/
def Undated (name : String) : Prop :=
  ∃ parts, parse? name = some parts ∧ ¬ Stamp.NamesSecond parts.stamp

/-- The names that the store writes are not such names. -/
theorem not_undated_writeBackup {artifact : String} {reading : Civil} {counter : Nat}
    (ha : Safe artifact) (hr : reading.Valid) (hyear : 1000 ≤ reading.year)
    (hc : counter < 100) : ¬ Undated (writeBackup artifact reading counter) := by
  rintro ⟨parts, hparts, hundated⟩
  have hstamp := hr.stampable hyear
  have hparse := parse?_writeBackup ha.nonempty ha.line hstamp hc
  obtain rfl := Option.some.inj (hparts.symm.trans hparse)
  refine hundated ?_
  exact ((Stamp.readChars_eq_ok_iff (Stamp.isStamp_writeChars hstamp)).mp
    (Stamp.readChars_writeChars hr hyear)).1

end Name

/-- An entry of a folder that is no link is looked at as what it is. -/
theorem World.look_child {w : World} {p : Path} {folder : Place} {name : String} {node : Node}
    {status : Status} (hwalk : w.tree.walk true w.here p = .ok folder)
    (hfolder : w.tree.get? folder = some .folder) (hname : Tree.Plain name)
    (hroom : (p.child name).text.utf8ByteSize ≤ longestPath)
    (hget : w.tree.get? (folder ++ [name]) = some node) (hstatus : statusOf node = some status) :
    w.look (p.child name) = .ok status := by
  have hchild : w.tree.walk true w.here (p.child name) = .ok (folder ++ [name]) := by
    obtain ⟨left, hleft⟩ := (Tree.walk_eq_ok_iff.mp hwalk).2.front hfolder
    rw [Tree.walk, if_neg (Nat.not_lt.mpr hroom)]
    refine (hleft true [name] (by simp)).trans ?_
    cases node with
    | file => exact Tree.walkFrom_leaf hname (Tree.skeleton_of_file hget)
    | folder => rw [Tree.walkFrom_into hname hget, Tree.walkFrom_nil]
    | link => cases hstatus
  simp only [look, onNode, hchild, hget, hstatus]

namespace Store

variable {s : Store} {w : World} {name : String} {names : List String} {status : Status}
  {b : Backup} {bs : List Backup} {failure : Failure}

/-- A file of the folder, or a link to one, whose name ends as a backup's. -/
structure HoldsFile (s : Store) (w : World) (name : String) (status : Status) : Prop where
  entry : name ∈ w.tree.children s.folder
  ends : Name.endsIn Name.backupSuffix name = true
  looked : w.look (s.pathOf name) = .ok status
  file : status.kind = .file

/-- What a listing tells of a file. -/
def Tells (s : Store) (w : World) (b : Backup) : Prop :=
  ∃ status, s.HoldsFile w b.name status ∧ b.size = status.size ∧
    ownerAndTime b.name status.changed = .ok (b.artifact, b.created)

/-- The listing tells of every file under such a name and of nothing else, the greatest name
first. -/
structure Lists (s : Store) (w : World) (bs : List Backup) : Prop where
  descending : bs.Pairwise fun a b => b.name < a.name
  names : ∀ name, name ∈ bs.map (·.name) ↔ ∃ status, s.HoldsFile w name status
  tells : ∀ b ∈ bs, s.Tells w b

/-- An entry stops a listing: a file whose name or whose time has no reading, or an entry that cannot
be looked at. -/
inductive Stops (s : Store) (w : World) (name : String) : Failure → Prop where
  | undated {status : Status} {f : Stamp.Fault} (holds : s.HoldsFile w name status)
      (undated : Name.Undated name) (fails : ownerAndTime name status.changed = .error f) :
      Stops s w name (.badStamp f)
  | untimely {status : Status} {f : Stamp.Fault} (holds : s.HoldsFile w name status)
      (unparsed : Name.parse? name = none) (untimely : ¬ status.changed.Timely)
      (fails : ownerAndTime name status.changed = .error f) : Stops s w name (.badStamp f)
  | overlong (entry : name ∈ w.tree.children s.folder)
      (ends : Name.endsIn Name.backupSuffix name = true)
      (walk : w.tree.walk true w.here (s.pathOf name) = .error .nameTooLong) :
      Stops s w name (.fault ⟨.nameTooLong, (s.pathOf name).text, none⟩)

/-- The owner and the time of a backup are told, except for a name whose digits name no second and
for a time out of range that stands for them. -/
theorem ownerAndTime_error {changed : Changed} {f : Stamp.Fault}
    (h : ownerAndTime name changed = .error f) :
    Name.Undated name ∨ Name.parse? name = none ∧ ¬ changed.Timely := by
  rw [ownerAndTime] at h
  rcases hparse : Name.parse? name with _ | parts
  · refine .inr ⟨rfl, fun htimely => ?_⟩
    obtain ⟨c, hc⟩ := htimely.reading
    simp [hparse, hc, Except.map] at h
  · refine .inl ⟨parts, hparse, fun hsecond => ?_⟩
    have hread := (Stamp.readChars_eq_ok_iff (Name.isStamp_of_parse? hparse)).mpr ⟨hsecond, rfl⟩
    simp [hparse, hread, Except.map] at h

/-- A file whose digits name no second does stop a listing. -/
theorem HoldsFile.stops (h : s.HoldsFile w name status) (hundated : Name.Undated name) :
    ∃ f, s.Stops w name (.badStamp f) := by
  obtain ⟨parts, hparse, hsecond⟩ := hundated
  rcases hread : Stamp.readChars parts.stamp with f | c
  · refine ⟨f, .undated h ⟨parts, hparse, hsecond⟩ ?_⟩
    simp [ownerAndTime, hparse, hread, Except.map]
  · have hstamp := Name.isStamp_of_parse? hparse
    exact absurd ((Stamp.readChars_eq_ok_iff hstamp).mp hread).1 hsecond

theorem Stops.entry (h : s.Stops w name failure) : name ∈ w.tree.children s.folder := by
  cases h with
  | undated holds | untimely holds => exact holds.entry
  | overlong entry => exact entry

/-- What stops a listing is a file that is not described or an entry that cannot be looked at. -/
theorem Stops.cases (h : s.Stops w name failure) :
    (∃ status f, s.HoldsFile w name status ∧ ownerAndTime name status.changed = .error f ∧
        failure = .badStamp f) ∨
      Name.endsIn Name.backupSuffix name = true ∧
        w.look (s.pathOf name) = .error ⟨.nameTooLong, (s.pathOf name).text, none⟩ := by
  cases h with
  | undated holds _ fails => exact .inl ⟨_, _, holds, fails, rfl⟩
  | untimely holds _ _ fails => exact .inl ⟨_, _, holds, fails, rfl⟩
  | overlong _ ends walk => exact .inr ⟨ends, by rw [World.look, World.onNode, walk]; rfl⟩

/-- An entry that is looked at stops a listing only if it is a file that is not described. -/
theorem Stops.of_look (h : s.Stops w name failure) (hlook : w.look (s.pathOf name) = .ok status) :
    s.HoldsFile w name status ∧
      ∃ f, ownerAndTime name status.changed = .error f ∧ failure = .badStamp f := by
  rcases h.cases with ⟨status', f, hholds, hfails, rfl⟩ | ⟨-, hlong⟩
  · obtain rfl := Except.ok.inj (hlook.symm.trans hholds.looked)
    exact ⟨hholds, f, hfails, rfl⟩
  · rw [hlook] at hlong
    cases hlong

/-- What is made of one entry of the folder. -/
inductive Describes (s : Store) (w : World) (name : String) :
    Except Failure (Option Backup) → Prop where
  | told {b : Backup} (named : b.name = name) (tells : s.Tells w b)
      (free : ∀ failure, ¬ s.Stops w name failure) : Describes s w name (.ok (some b))
  | passed (lacks : ∀ status, ¬ s.HoldsFile w name status)
      (free : ∀ failure, ¬ s.Stops w name failure) : Describes s w name (.ok none)
  | stopped {failure : Failure} (stops : s.Stops w name failure) :
      Describes s w name (.error failure)

theorem does_describe_entry (hentry : name ∈ w.tree.children s.folder) :
    (s.describe none name).run.Does (· = w) w fun r v _ => v = w ∧ s.Describes w name r := by
  rw [describe]
  by_cases hends : Name.endsIn Name.backupSuffix name = true
  · rw [if_pos hends]
    refine does_andThen.mpr (Task.does_ofFile.mpr (FileTask.does_leads.mpr ⟨rfl, ?_⟩))
    rcases hlook : w.look (s.pathOf name) with f | status
    · have hlacks : ∀ status, ¬ s.HoldsFile w name status := by
        intro status hholds
        rw [hholds.looked] at hlook
        cases hlook
      by_cases hnowhere : f.cause.leadsNowhere = true
      · have hleads : FileTask.leadsIn w (s.pathOf name) (fun status => status.kind = .file)
            = .ok false := by
          simp only [FileTask.leadsIn, hlook, hnowhere, if_true]
        rw [hleads]
        refine does_pure.mpr ⟨rfl, rfl, .passed hlacks fun failure hstops => ?_⟩
        rcases hstops.cases with ⟨status, _, hholds, -⟩ | ⟨-, hlong⟩
        · exact hlacks status hholds
        · obtain rfl := Except.error.inj (hlook.symm.trans hlong)
          cases hnowhere
      · have hleads : FileTask.leadsIn w (s.pathOf name) (fun status => status.kind = .file)
            = .error f := by
          simp only [FileTask.leadsIn, hlook, hnowhere]
          rfl
        rw [hleads]
        rcases World.look_error hlook with hcause | ⟨hwalk, rfl⟩
        · exact absurd hcause hnowhere
        · exact ⟨rfl, rfl, .stopped (.overlong hentry hends hwalk)⟩
    · have hleads : FileTask.leadsIn w (s.pathOf name) (fun status => status.kind = .file)
          = .ok (decide (status.kind = .file)) := by rw [FileTask.leadsIn, hlook]
      rw [hleads]
      by_cases hfile : status.kind = .file
      · have hholds : s.HoldsFile w name status := ⟨hentry, hends, hlook, hfile⟩
        rw [decide_eq_true hfile]
        refine does_andThen.mpr (Task.does_ofFile.mpr (FileTask.does_look.mpr ⟨rfl, ?_⟩))
        rw [hlook]
        simp only [Except.mapError]
        rcases htold : ownerAndTime name status.changed with f | ⟨owner, created⟩
        · refine does_throw.mpr ⟨rfl, rfl, .stopped ?_⟩
          rcases ownerAndTime_error htold with hundated | ⟨hparse, htimely⟩
          · exact .undated hholds hundated htold
          · exact .untimely hholds hparse htimely htold
        · refine does_pure.mpr ⟨rfl, rfl, .told rfl ⟨status, hholds, rfl, htold⟩ ?_⟩
          intro failure hstops
          obtain ⟨-, f, hfails, -⟩ := hstops.of_look hlook
          rw [htold] at hfails
          cases hfails
      · rw [decide_eq_false hfile]
        refine does_pure.mpr ⟨rfl, rfl, .passed (fun status' hholds => ?_) fun _ hstops => ?_⟩
        · obtain rfl := Except.ok.inj (hlook.symm.trans hholds.looked)
          exact hfile hholds.file
        · exact hfile (hstops.of_look hlook).1.file
  · rw [if_neg hends]
    refine does_pure.mpr ⟨rfl, rfl, .passed (fun _ hholds => hends hholds.ends) ?_⟩
    intro failure hstops
    rcases hstops.cases with ⟨_, _, hholds, -⟩ | ⟨hends', -⟩
    · exact hends hholds.ends
    · exact hends hends'

/-! ### The listing -/

/-- What is made of entries of the folder one after the other. -/
inductive DescribesAll (s : Store) (w : World) (names : List String) :
    Except Failure (List Backup) → Prop where
  | told {bs : List Backup} (sublist : (bs.map (·.name)).Sublist names)
      (all : ∀ name ∈ names, ∀ status, s.HoldsFile w name status → name ∈ bs.map (·.name))
      (tells : ∀ b ∈ bs, s.Tells w b)
      (free : ∀ name ∈ names, ∀ failure, ¬ s.Stops w name failure) : DescribesAll s w names (.ok bs)
  | stopped {name : String} {failure : Failure} (mem : name ∈ names)
      (stops : s.Stops w name failure) : DescribesAll s w names (.error failure)

theorem does_describeAll_entries (hnames : ∀ name ∈ names, name ∈ w.tree.children s.folder) :
    (s.describeAll none names).run.Does (· = w) w fun r v _ =>
      v = w ∧ s.DescribesAll w names r := by
  induction names with
  | nil => exact does_pure.mpr ⟨rfl, rfl, .told (by simp) (by simp) (by simp) (by simp)⟩
  | cons name names ih =>
    have hrest := ih fun name' hmem => hnames name' (List.mem_cons_of_mem name hmem)
    rw [describeAll]
    refine does_andThen.mpr ((does_describe_entry (hnames name List.mem_cons_self)).mono
      (fun _ hv => hv) ?_)
    rintro r v es ⟨rfl, hone⟩
    cases hone with
    | told named tells free =>
      refine does_andThen.mpr (hrest.mono (fun _ hv => hv) ?_)
      rintro r u es ⟨rfl, hall⟩
      cases hall with
      | told sublist all tells' free' =>
        refine does_pure.mpr ⟨rfl, rfl, .told ?_ ?_ ?_ ?_⟩
        · rw [List.map_cons, named]
          exact sublist.cons_cons name
        · rw [List.map_cons, named]
          refine List.forall_mem_cons.mpr ⟨fun _ _ => List.mem_cons_self, ?_⟩
          exact fun name' hmem status hholds =>
            List.mem_cons_of_mem name (all name' hmem status hholds)
        · exact List.forall_mem_cons.mpr ⟨tells, tells'⟩
        · exact List.forall_mem_cons.mpr ⟨free, free'⟩
      | stopped mem stops => exact ⟨rfl, rfl, .stopped (List.mem_cons_of_mem name mem) stops⟩
    | passed lacks free =>
      refine hrest.mono (fun _ hv => hv) ?_
      rintro r u es ⟨rfl, hall⟩
      refine ⟨rfl, ?_⟩
      cases hall with
      | told sublist all tells free' =>
        refine .told (sublist.cons name) ?_ tells (List.forall_mem_cons.mpr ⟨free, free'⟩)
        exact List.forall_mem_cons.mpr ⟨fun status hholds => absurd hholds (lacks status), all⟩
      | stopped mem stops => exact .stopped (List.mem_cons_of_mem name mem) stops
    | stopped stops => exact ⟨rfl, rfl, .stopped List.mem_cons_self stops⟩

theorem Founded.does_list_entries (h : s.Founded w) (hstands : w.Stands s.folder.path) :
    (s.list none).run.Does (· = w) w fun r v _ => v = w ∧
      ∃ r', s.DescribesAll w (w.tree.children s.folder) r' ∧
        r = r'.map fun bs => bs.mergeSort listsBefore := by
  obtain ⟨folder, hwalk, hfolder⟩ := hstands
  obtain rfl := h.folder_eq hwalk
  have hlist : w.list s.folder.path = .ok (w.tree.children s.folder) := by
    simp only [World.list, World.onNode, hwalk, hfolder]
  rw [list]
  refine does_andThen.mpr (Task.does_ofFileOr.mpr (FileTask.does_list.mpr ⟨rfl, ?_⟩))
  rw [hlist]
  refine does_andThen.mpr ((does_describeAll_entries fun _ hmem => hmem).mono (fun _ hv => hv) ?_)
  rintro (failure | bs) v es ⟨rfl, hall⟩
  · exact ⟨rfl, rfl, _, hall, rfl⟩
  · exact does_pure.mpr ⟨rfl, rfl, _, hall, rfl⟩

theorem DescribesAll.lists (h : s.DescribesAll w (w.tree.children s.folder) (.ok bs))
    (hdistinct : w.tree.Distinct) : s.Lists w (bs.mergeSort listsBefore) := by
  have hsorted : ∀ b, b ∈ bs.mergeSort listsBefore ↔ b ∈ bs := fun b => List.mem_mergeSort
  cases h with
  | told sublist all tells =>
    refine ⟨?_, fun name => ⟨?_, ?_⟩, fun b hb => tells b ((hsorted b).mp hb)⟩
    · exact descends_of_nodup ((hdistinct.nodup_children s.folder).sublist sublist)
    · intro hmem
      obtain ⟨b, hb, rfl⟩ := List.mem_map.mp hmem
      obtain ⟨status, hholds, -⟩ := tells b ((hsorted b).mp hb)
      exact ⟨status, hholds⟩
    · rintro ⟨status, hholds⟩
      obtain ⟨b, hb, rfl⟩ := List.mem_map.mp (all name hholds.entry status hholds)
      exact List.mem_map_of_mem ((hsorted b).mpr hb)

/-- A listing cannot tell two things of one file. -/
theorem Tells.unique {b' : Backup} (h : s.Tells w b) (h' : s.Tells w b') (hname : b.name = b'.name) :
    b = b' := by
  obtain ⟨status, hholds, hsize, htold⟩ := h
  obtain ⟨status', hholds', hsize', htold'⟩ := h'
  rw [hname] at hholds htold
  obtain rfl := Except.ok.inj (hholds.looked.symm.trans hholds'.looked)
  obtain ⟨hartifact, hcreated⟩ := Prod.mk.inj (Except.ok.inj (htold.symm.trans htold'))
  cases b
  cases b'
  simp_all

/-- The listing of a folder with one entry that is a backup. -/
theorem Founded.list_one (h : s.Founded w) (hstands : w.Stands s.folder.path)
    (hone : w.tree.children s.folder = [b.name]) (htells : s.Tells w b) :
    (s.list none).run.run w = (.ok [b], w) := by
  obtain ⟨hsame, r, hall, hr⟩ := (h.does_list_entries hstands).ends
  refine Prod.ext (hr.trans ?_) hsame
  have ⟨status, hholds, _, htold⟩ := htells
  rw [hone] at hall
  cases hall with
  | @told bs sublist all tells free =>
    have hmem : b.name ∈ bs.map (·.name) := all b.name List.mem_cons_self status hholds
    have hnames : bs.map (·.name) = [b.name] :=
      sublist.eq_of_length_le (List.length_pos_of_mem hmem)
    obtain ⟨c, rfl, hname⟩ := List.map_eq_singleton_iff.mp hnames
    obtain rfl := (tells c List.mem_cons_self).unique htells hname
    rw [Except.map, List.mergeSort_singleton]
  | stopped mem stops =>
    obtain rfl := List.mem_singleton.mp mem
    obtain ⟨-, f, hfails, -⟩ := stops.of_look hholds.looked
    cases htold.symm.trans hfails

/-- A listing tells of every file, unless an entry stops it. -/
theorem lists_files_unless_stopped (h : s.Founded w) (hstands : w.Stands s.folder.path)
    (hdistinct : w.tree.Distinct) :
    (s.list none).run.Does (· = w) w fun r v _ => v = w ∧
      ((∃ bs, r = .ok bs ∧ s.Lists w bs ∧ ∀ name failure, ¬ s.Stops w name failure) ∨
        ∃ name failure, r = .error failure ∧ s.Stops w name failure) := by
  refine (h.does_list_entries hstands).mono (fun _ hv => hv) ?_
  rintro r v es ⟨rfl, r', hall, rfl⟩
  refine ⟨rfl, ?_⟩
  rcases r' with failure | bs
  · cases hall with
    | stopped _ stops => exact .inr ⟨_, failure, rfl, stops⟩
  · refine .inl ⟨_, rfl, hall.lists hdistinct, fun name failure hstops => ?_⟩
    cases hall with
    | told _ _ _ free => exact free name hstops.entry failure hstops

/-! ### A folder of all kinds of entries -/

/-- The shelf with the given entries. -/
def shelved (entries : List (String × Node)) : World :=
  { emptyAt shelf.folder with
    tree := ⟨(shelf.folder, .folder) :: entries.map fun e => (shelf.folder ++ [e.1], e.2)⟩ }

private theorem walk_shelved (entries : List (String × Node)) :
    (shelved entries).tree.walk true (shelved entries).here shelf.folder.path = .ok ["b"] := by
  have hfolder : (shelved entries).tree.get? ([] ++ ["b"]) = some .folder := by
    simp [shelved, shelf, Tree.get?]
  rw [Tree.walk, if_neg (by decide)]
  exact (Tree.walkFrom_into ⟨by decide, by decide⟩ hfolder).trans (Tree.walkFrom_nil ..)

private theorem look_shelved {entries : List (String × Node)} {node : Node} (hname : Tree.Plain name)
    (hroom : (shelf.pathOf name).text.utf8ByteSize ≤ longestPath)
    (hget : (shelved entries).tree.get? ["b", name] = some node)
    (hstatus : World.statusOf node = some status) :
    (shelved entries).look (shelf.pathOf name) = .ok status :=
  World.look_child (walk_shelved entries) (by simp [shelved, shelf, Tree.get?]) hname hroom hget
    hstatus

/-- A backup, a file whose name only ends like one's, a folder, a link to nowhere and a note. -/
def motley : World :=
  shelved [("a.20240501_120000.backup", .file [97] 0o644 .lately),
    ("b.backup", .file [] 0o644 (.known 0)), ("c.backup", .folder), ("d.backup", .link "nowhere"),
    ("n.txt", .file [] 0o644 .lately)]

private theorem look_motley_link :
    motley.look (shelf.pathOf "d.backup") = World.fault .noEntry (shelf.pathOf "d.backup") := by
  have hfolder : motley.tree.get? ["b"] = some .folder := by decide
  have hlink : motley.tree.get? ["b", "d.backup"] = some (.link "nowhere") := by decide
  have hnone : motley.tree.get? ["b", "nowhere"] = none := by decide
  have hwalk : motley.tree.walk true motley.here (shelf.pathOf "d.backup")
      = .ok ["b", "nowhere"] := by
    rw [Tree.walk, if_neg (by decide)]
    exact (Tree.walkFrom_into ⟨by decide, by decide⟩ hfolder).trans
      ((Tree.walkFrom_through ⟨by decide, by decide⟩ hlink fun _ => rfl).trans
        (Tree.walkFrom_leaf ⟨by decide, by decide⟩ (Tree.skeleton_of_vacant hnone)))
  simp only [World.look, World.onNode, hwalk, hnone]

private theorem motley_unstopped (name : String) (failure : Failure) :
    ¬ shelf.Stops motley name failure := by
  intro hstops
  have hmem : name ∈ ["a.20240501_120000.backup", "b.backup", "c.backup", "d.backup", "n.txt"] :=
    hstops.entry
  simp only [List.mem_cons, List.not_mem_nil, or_false] at hmem
  rcases hmem with rfl | rfl | rfl | rfl | rfl
  · have hget : motley.tree.get? ["b", "a.20240501_120000.backup"]
        = some (.file [97] 0o644 .lately) := by decide
    obtain ⟨-, f, hfails, -⟩ :=
      hstops.of_look (look_shelved ⟨by decide, by decide⟩ (by decide) hget rfl)
    cases hfails
  · have hget : motley.tree.get? ["b", "b.backup"] = some (.file [] 0o644 (.known 0)) := by decide
    obtain ⟨-, f, hfails, -⟩ :=
      hstops.of_look (look_shelved ⟨by decide, by decide⟩ (by decide) hget rfl)
    have hparse : Name.parse? "b.backup" = none := rfl
    rcases ownerAndTime_error hfails with ⟨parts, hparts, -⟩ | ⟨-, htimely⟩
    · rw [hparse] at hparts
      cases hparts
    · exact htimely (by simp [Changed.Timely])
  · have hget : motley.tree.get? ["b", "c.backup"] = some .folder := by decide
    obtain ⟨hholds, -⟩ := hstops.of_look (look_shelved ⟨by decide, by decide⟩ (by decide) hget rfl)
    cases hholds.file
  · rcases hstops.cases with ⟨_, _, hholds, -⟩ | ⟨-, hlong⟩
    · cases look_motley_link.symm.trans hholds.looked
    · cases look_motley_link.symm.trans hlong
  · rcases hstops.cases with ⟨_, _, hholds, -⟩ | ⟨hends, -⟩
    · exact absurd hholds.ends (by decide)
    · exact absurd hends (by decide)

theorem lists_files_unless_stopped_motley :
    shelf.Founded motley ∧ motley.Stands shelf.folder.path ∧ motley.tree.Distinct ∧
      ∃ bs, (shelf.list none).run.run motley = (.ok bs, motley) ∧ shelf.Lists motley bs := by
  have hfounded : shelf.Founded motley :=
    ⟨⟨Tree.sound_of_entries (by decide), rfl⟩, by decide, by decide⟩
  have hstands : motley.Stands shelf.folder.path := ⟨["b"], walk_shelved _, by decide⟩
  have hdistinct : motley.tree.Distinct := by
    rw [Tree.Distinct]
    decide
  refine ⟨hfounded, hstands, hdistinct, ?_⟩
  obtain ⟨hsame, ⟨bs, hbs, hlists, -⟩ | ⟨name, failure, -, hstops⟩⟩ :=
    (lists_files_unless_stopped hfounded hstands hdistinct).ends
  · exact ⟨bs, Prod.ext hbs hsame, hlists⟩
  · exact absurd hstops (motley_unstopped name failure)

/-- A backup, and a file whose name asks for the thirteenth month. -/
def stranger : World :=
  shelved [("a.20240501_120000.backup", .file [97] 0o644 .lately),
    ("x.20241301_000000.backup", .file [] 0o644 .lately)]

private theorem parse?_stranger : Name.parse? "x.20241301_000000.backup"
    = some ⟨['x'], "20241301_000000".toList, none⟩ := rfl

/-- The digits of one name keep the backup beside it from being listed. -/
theorem stranger_stops_listing :
    shelf.HoldsFile stranger "a.20240501_120000.backup" ⟨.file, 0o644, 1, .lately⟩ ∧
      (shelf.list none).run.run stranger
        = (.error (.badStamp (.noMatch "20241301_000000")), stranger) := by
  have hfounded : shelf.Founded stranger :=
    ⟨⟨Tree.sound_of_entries (by decide), rfl⟩, by decide, by decide⟩
  have hbackup : stranger.tree.get? ["b", "a.20240501_120000.backup"]
      = some (.file [97] 0o644 .lately) := by decide
  have hother : stranger.tree.get? ["b", "x.20241301_000000.backup"]
      = some (.file [] 0o644 .lately) := by decide
  have hlook : stranger.look (shelf.pathOf "a.20240501_120000.backup")
      = .ok ⟨.file, 0o644, 1, .lately⟩ :=
    look_shelved ⟨by decide, by decide⟩ (by decide) hbackup rfl
  have hlook' : stranger.look (shelf.pathOf "x.20241301_000000.backup")
      = .ok ⟨.file, 0o644, 0, .lately⟩ :=
    look_shelved ⟨by decide, by decide⟩ (by decide) hother rfl
  have hholds : shelf.HoldsFile stranger "x.20241301_000000.backup" _ :=
    ⟨by decide, by decide, hlook', rfl⟩
  have hundated : Name.Undated "x.20241301_000000.backup" := ⟨_, parse?_stranger, by decide⟩
  refine ⟨⟨by decide, by decide, hlook, rfl⟩, ?_⟩
  obtain ⟨hsame, r, hall, hr⟩ :=
    (hfounded.does_list_entries ⟨["b"], walk_shelved _, by decide⟩).ends
  refine Prod.ext (hr.trans ?_) hsame
  cases hall with
  | told _ _ _ free =>
    obtain ⟨f, hstops⟩ := hholds.stops hundated
    exact absurd hstops (free _ hholds.entry _)
  | stopped mem stops =>
    have hmem : _ ∈ ["a.20240501_120000.backup", "x.20241301_000000.backup"] := mem
    simp only [List.mem_cons, List.not_mem_nil, or_false] at hmem
    rcases hmem with rfl | rfl
    · obtain ⟨-, f, hfails, -⟩ := stops.of_look hlook
      cases hfails
    · obtain ⟨-, f, hfails, rfl⟩ := stops.of_look hlook'
      cases hfails
      rfl

end Store
end ConfigSteward
