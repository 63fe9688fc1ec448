import ConfigSteward.Proofs.Apart.Calls
import ConfigSteward.Proofs.Save.Observing

/-!
# The places of server files

A server file has one place in the folder of servers, and its backups have theirs in the folder of
the store, under names that tell the file. So no place belongs to two files, and calls that concern
different files have scopes of their own.
-/
namespace ConfigSteward

open Plan

/-! ### Ways through folders -/

namespace Tree

variable {t : Tree} {p q : Place} {names front : List String} {follow : Bool} {links : Nat}

theorem Sound.folder_before (ht : t.Sound) (hq : t.get? q = some .folder) (hfront : front <+: q) :
    t.get? front = some .folder := by
  obtain ⟨rest, rfl⟩ := hfront
  by_cases hrest : rest = []
  · simpa [hrest] using hq
  · by_contra hfolder
    rw [ht.vacant_below hfolder rest hrest] at hq
    cases hq

/-- Without links a walk to a folder comes by folders alone. -/
theorem Leads.folder_before (ht : t.Sound) (ht' : t.Linkless)
    (h : t.Leads follow links p names q) (hp : t.get? p = some .folder)
    (hq : t.get? q = some .folder) (hfront : front <+: names) :
    t.get? (Path.collapse p front) = some .folder := by
  induction h generalizing front with
  | stop =>
    rw [List.prefix_nil.mp hfront]
    exact hp
  | @up _ p _ _ _ ih =>
    cases front with
    | nil => exact hp
    | cons first front =>
      obtain ⟨rfl, hrest⟩ := List.cons_prefix_cons.mp hfront
      rw [Path.collapse, if_pos rfl]
      exact ih (ht.folder_before hp (List.dropLast_prefix p)) hq hrest
  | into plain found _ ih =>
    cases front with
    | nil => exact hp
    | cons first front =>
      obtain ⟨rfl, hrest⟩ := List.cons_prefix_cons.mp hfront
      rw [Path.collapse, if_neg plain.1]
      exact ih (skeleton_eq_folder_iff.mp found) hq hrest
  | leaf _ found =>
    rw [skeleton_eq_folder_iff.mpr hq] at found
    cases found
  | kept _ found | through _ found => exact absurd (skeleton_eq_link_iff.mp found) (ht' _ _)

end Tree

namespace Path

private theorem placeFrom_no_up {here : Place} (hhere : ".." ∉ here) (p : Path) :
    ".." ∉ p.placeFrom here := by
  refine collapse_keeps_no_up ?_ p.parts
  unfold start
  split
  · exact hhere
  · simp

end Path

namespace World

variable {w : World} {p : Path} {front : List String}

theorem Regular.folder_before (hw : w.Regular) (h : w.Stands p) (hfront : front <+: p.parts) :
    w.tree.get? (Path.collapse (p.start w.here) front) = some .folder := by
  obtain ⟨place, hwalk, hfolder⟩ := h
  exact (Tree.walk_eq_ok_iff.mp hwalk).2.folder_before hw.sound.tree hw.linkless
    (Tree.get?_start hw.sound.here p) hfolder hfront

theorem Regular.folder_of_stands (hw : w.Regular) (h : w.Stands p) :
    w.tree.get? (p.placeFrom w.here) = some .folder := hw.folder_before h List.prefix_rfl

/-- The folder for temporary files is written as the place of the folder that it stands for. -/
theorem tempFolder_spec (hhere : ".." ∉ w.here) (p : Path) (here : Place) :
    (w.tempFolder p).start here = [] ∧ (w.tempFolder p).parts = p.placeFrom w.here := by
  obtain ⟨lead, parts⟩ := p
  cases lead with
  | none =>
    refine ⟨rfl, ?_⟩
    change Path.collapse [] (w.here ++ parts) = Path.collapse w.here parts
    rw [Path.collapse_append, Path.collapse_of_no_up hhere, List.nil_append]
  | one | two => exact ⟨rfl, rfl⟩

end World

theorem Scope.Clear.child {σ : Scope} {p : Path} {name : String} (hp : σ.Clear p)
    (hend : ¬ σ.others ((p.child name).placeFrom σ.start.here)) : σ.Clear (p.child name) := by
  intro front hfront
  rcases List.prefix_concat_iff.mp hfront with rfl | hfront
  · exact hend
  · exact hp front hfront

/-! ### What belongs to a server file -/

/-- A name that server files have. -/
def Name.IsServerName (file : String) : Prop := Name.normalizeServer (some file) = .ok file

namespace Name.IsServerName

variable {file : String} (h : IsServerName file)
include h

theorem safe : Safe file := (normalizeServer_spec h).1

theorem endsIn : Name.endsIn serverSuffix file = true := (normalizeServer_spec h).2.1

end Name.IsServerName

theorem Name.isServerName_of_safe {file : String} (h : Safe file)
    (hserver : isServerFile file = true) : IsServerName file := by
  refine normalizeServer_of_safe h (endsIn_of_isServerFile h hserver) ?_
  simp only [isServerFile, h.dropFinalBreak_eq, Bool.and_eq_true, decide_eq_true_eq] at hserver
  exact hserver.2

namespace Site

variable {s : Site} {w : World} {c : Call} {here q : Place} {file file' : String}
  {mine others : String → Prop}

/-- The places of a server file and of its backups. -/
inductive Belongs (s : Site) (here : Place) (file : String) : Place → Prop where
  | server : Belongs s here file (s.servers.placeFrom here ++ [file])
  | backup {name : String} (tells : Name.artifactOf name = .ok file) :
      Belongs s here file (s.store.folder ++ [name])

/-- No place belongs to two server files. -/
theorem Belongs.unique (hfile : Name.IsServerName file) (hfile' : Name.IsServerName file')
    (h : s.Belongs here file q) (h' : s.Belongs here file' q) : file = file' := by
  have hmixed {file file' name : String} (hfile : Name.IsServerName file)
      (htells : Name.artifactOf name = .ok file')
      (heq : s.servers.placeFrom here ++ [file] = s.store.folder ++ [name]) : False := by
    obtain rfl := List.singleton_inj.mp (List.append_inj_right' heq rfl)
    exact Name.not_backup_of_server hfile.endsIn
      (Name.endsIn_of_artifactOf htells hfile.safe.dropFinalBreak_eq)
  generalize hq : q = q' at h'
  cases h with
  | server =>
    cases h' with
    | server => exact List.singleton_inj.mp (List.append_cancel_left hq)
    | backup tells' => exact (hmixed hfile tells' hq).elim
  | backup tells =>
    cases h' with
    | server => exact (hmixed hfile' tells hq.symm).elim
    | backup tells' =>
      obtain rfl := List.singleton_inj.mp (List.append_cancel_left hq)
      exact Except.ok.inj (tells.symm.trans tells')

/-- The place of a temporary file beside the server files. -/
def Fleeting (s : Site) (here q : Place) : Prop :=
  ∃ base n, q = s.servers.placeFrom here ++ [World.tempName base n]

theorem Fleeting.not_telling {folder : Place} {name : String}
    (h : s.Fleeting here (folder ++ [name])) : ¬ Save.Telling name := by
  obtain ⟨base, n, hq⟩ := h
  rw [List.singleton_inj.mp (List.append_inj_right' hq rfl)]
  exact Save.not_telling_tempName base n

theorem Fleeting.not_belongs (h : s.Fleeting here q) (hfile : Name.IsServerName file) :
    ¬ s.Belongs here file q := by
  intro hbelongs
  cases hbelongs with
  | server => exact h.not_telling (.inl hfile.endsIn)
  | @backup name tells =>
    refine h.not_telling (.inr (Name.endsIn_of_artifactOf tells ?_))
    obtain ⟨base, n, hq⟩ := h
    obtain ⟨front, hfront⟩ := World.suffix_tempName base n
    have hlast : name.toList.getLast? = some 'p' := by
      rw [List.singleton_inj.mp (List.append_inj_right' hq rfl), ← hfront, List.getLast?_append]
      rfl
    rw [Name.dropFinalBreak, hlast, if_neg (by decide)]

/-! ### Scopes of calls -/

/-- The call changes a server file or puts a backup of one back. -/
def Call.OnServerFiles (s : Site) : Call → Prop
  | .saveServer .. | .createServer .. | .deleteServer _ | .renameServer .. => True
  | .restoreBackup name => Name.artifactOf name ≠ .ok s.config.name
  | _ => False

/-- The server files that a call concerns. -/
def Call.Concerns (s : Site) (c : Call) (file : String) : Prop :=
  match c with
  | .saveServer name _ | .createServer name _ | .deleteServer name => s.Means name file
  | .renameServer old new => s.Means old file ∨ s.Means new file
  | .restoreBackup name => Name.artifactOf name = .ok file ∧ s.Means (some file) file
  | _ => False

theorem Means.isServerName {given : Option String} (h : s.Means given file) :
    Name.IsServerName file :=
  Name.isServerName_of_safe (Name.normalizeServer_spec h.1).1 (Name.normalizeServer_spec h.1).2.2

theorem Call.Concerns.isServerName (h : c.Concerns s file) : Name.IsServerName file := by
  cases c with
  | saveServer | createServer | deleteServer => exact Means.isServerName h
  | renameServer => exact h.elim Means.isServerName Means.isServerName
  | restoreBackup => exact h.2.isServerName
  | _ => exact h.elim

/-- The site stands with its folder of servers in a world that calls may begin in. Places are written
without dots. -/
structure Grounded (s : Site) (w : World) : Prop where
  settled : w.Settled
  servers : w.Stands s.servers
  resolved : ".." ∉ s.store.folder
  here : ".." ∉ w.here

/-- The places of some files and of their backups, apart from those that are folders. -/
def Changing (s : Site) (w : World) (files : String → Prop) (q : Place) : Prop :=
  (∃ file, files file ∧ s.Belongs w.here file q) ∧ w.tree.get? q ≠ some .folder

/-- What work on some files may change while there is work on others. -/
def scope (s : Site) (w : World) (mine others : String → Prop) : Scope where
  start := w
  own q := (∃ file, mine file ∧ s.Belongs w.here file q) ∨ s.Fleeting w.here q
  others := s.Changing w others
  artifacts := mine

/-- Work on some files does not get into the way of work on others: the files are different ones, and
the store's folder, if it is missing, is not to be made at or below one of the others. -/
structure Parted (s : Site) (w : World) (mine others : String → Prop) : Prop where
  named : ∀ file, mine file → Name.IsServerName file
  named' : ∀ file, others file → Name.IsServerName file
  apart : ∀ file, mine file → ¬ others file
  store : w.tree.get? s.store.folder = some .folder ∨
    ∀ file, others file → ¬ s.servers.placeFrom w.here ++ [file] <+: s.store.folder

section
variable (hs : s.Grounded w)
include hs

private theorem clear_servers : (s.scope w mine others).Clear s.servers := by
  rintro front hfront ⟨-, hfolder⟩
  exact hfolder (hs.settled.regular.folder_before hs.servers hfront)

private theorem placeFrom_temp (name : String) (hname : name ≠ "..") :
    ((w.tempFolder s.servers).child name).placeFrom w.here
      = s.servers.placeFrom w.here ++ [name] := by
  obtain ⟨hstart, hparts⟩ := World.tempFolder_spec hs.here s.servers w.here
  have hfolder : (w.tempFolder s.servers).placeFrom w.here = s.servers.placeFrom w.here := by
    rw [Path.placeFrom, hstart, hparts, Path.collapse_of_no_up (Path.placeFrom_no_up hs.here _),
      List.nil_append]
  rw [Path.placeFrom_child _ _ hname, hfolder]

private theorem clear_temp : (s.scope w mine others).Clear (w.tempFolder s.servers) := by
  rintro front hfront ⟨-, hfolder⟩
  obtain ⟨hstart, hparts⟩ := World.tempFolder_spec hs.here s.servers w.here
  rw [hparts] at hfront
  have hup : ".." ∉ front := fun hmem => Path.placeFrom_no_up hs.here _ (hfront.subset hmem)
  have hregular := hs.settled.regular
  apply hfolder
  change w.tree.get? (Path.collapse ((w.tempFolder s.servers).start w.here) front) = _
  rw [hstart, Path.collapse_of_no_up hup, List.nil_append]
  exact hregular.sound.tree.folder_before (hregular.folder_of_stands hs.servers) hfront

variable (h : s.Parted w mine others)
include h

private theorem clear_store : (s.scope w mine others).Clear s.store.folder.path := by
  rintro front hfront ⟨⟨file, hfile, hbelongs⟩, hfolder⟩
  have hup : ".." ∉ front := fun hmem => hs.resolved (hfront.subset hmem)
  have hplace : Path.collapse (s.store.folder.path.start w.here) front = front :=
    (Path.collapse_of_no_up hup []).trans (List.nil_append _)
  change s.Belongs w.here file (Path.collapse (s.store.folder.path.start w.here) front) at hbelongs
  change w.tree.get? (Path.collapse (s.store.folder.path.start w.here) front) ≠ _ at hfolder
  rw [hplace] at hbelongs hfolder
  rcases h.store with hthere | hbelow
  · exact hfolder (hs.settled.regular.sound.tree.folder_before hthere hfront)
  · cases hbelongs with
    | server => exact hbelow file hfile hfront
    | backup =>
      have hlength := hfront.length_le
      simp [Place.path] at hlength

omit hs in
/-- What belongs to a file of one's own belongs to no other's. -/
theorem not_others (hfile : mine file) {q : Place} (hq : s.Belongs w.here file q) :
    ¬ (s.scope w mine others).others q := by
  rintro ⟨⟨file', hfile', hq'⟩, -⟩
  have heq := hq.unique (h.named file hfile) (h.named' file' hfile') hq'
  exact h.apart file hfile (heq ▸ hfile')

/-- A backup is clear if it is none of the others'. -/
theorem clear_backup {name : String} (hname : Name.endsIn Name.backupSuffix name = true)
    (hnone : ∀ file, others file → Name.artifactOf name ≠ .ok file) :
    (s.scope w mine others).Clear (s.store.pathOf name) := by
  refine (clear_store hs h).child ?_
  rintro ⟨⟨file, hfile, hbelongs⟩, -⟩
  change s.Belongs w.here file ((s.store.pathOf name).placeFrom w.here) at hbelongs
  rw [Store.placeFrom_pathOf hs.resolved hname] at hbelongs
  generalize hq : s.store.folder ++ [name] = q at hbelongs
  cases hbelongs with
  | server =>
    rw [List.singleton_inj.mp (List.append_inj_right' hq rfl)] at hname
    exact Name.not_backup_of_server (h.named' file hfile).endsIn hname
  | backup tells =>
    rw [← List.singleton_inj.mp (List.append_cancel_left hq)] at tells
    exact hnone file hfile tells

/-- The scope of work on some files covers each of them. -/
theorem covers (hfile : mine file) : s.Covers (s.scope w mine others) file := by
  have hserver := h.named file hfile
  have hplace : (s.servers.child file).placeFrom w.here = s.servers.placeFrom w.here ++ [file] :=
    Path.placeFrom_child _ _ hserver.safe.noUp
  have hgranted {p : Path} (hp : (s.scope w mine others).Clear p) {q : Place}
      (hq : p.placeFrom w.here = q) (hbelongs : s.Belongs w.here file q) :
      (s.scope w mine others).Grants p := ⟨hp, .inl ⟨file, hfile, hq ▸ hbelongs⟩⟩
  refine ⟨hs.servers, hfile, ?_, fun n => ?_, fun reading k hreading hk => ?_⟩
  · refine hgranted ((clear_servers hs).child ?_) hplace .server
    change ¬ (s.scope w mine others).others ((s.servers.child file).placeFrom w.here)
    rw [hplace]
    exact not_others h hfile .server
  · have htemp := placeFrom_temp hs _ (World.tempName_ne_up file n)
    have hfleeting : s.Fleeting w.here
        (((w.tempFolder s.servers).child (World.tempName file n)).placeFrom w.here) :=
      ⟨file, n, htemp⟩
    refine ⟨(clear_temp hs).child ?_, .inr hfleeting⟩
    rintro ⟨⟨file', hfile', hbelongs⟩, -⟩
    exact hfleeting.not_belongs (h.named' file' hfile') hbelongs
  · have hends := Name.endsIn_writeBackup file reading k
    have htells := Name.artifactOf_writeBackup hserver.safe hreading hk
    refine hgranted (clear_backup hs h hends fun file' hfile' htells' => ?_)
      (Store.placeFrom_pathOf hs.resolved hends w.here) (.backup htells)
    have heq := Except.ok.inj (htells.symm.trans htells')
    exact h.apart file hfile (heq ▸ hfile')

end

/-- A call on server files is within the scope of the files that it concerns. -/
theorem within_call (hs : s.Grounded w) (hc : c.OnServerFiles s)
    (h : s.Parted w (c.Concerns s) others) :
    (s.call c).run.Within (s.scope w (c.Concerns s) others) := by
  have hk : Plan.Kind.Composes fun _ p => p.Within (s.scope w (c.Concerns s) others) :=
    Within.composes
  cases c with
  | saveServer name content =>
    refine hk.andThen ?_ fun _ => hk.pure _
    rcases s.serverPath_cases name with ⟨file, hmeans, hp⟩ | ⟨refusal, -, -, hp⟩
    · simp only [saveServer, serverPathTask, hp, pure_bind]
      cases content with
      | whole text => exact (covers hs h hmeans).save text
      | broken text => exact hk.done _
    · simp only [saveServer, serverPathTask, hp]
      exact hk.refuse _
  | createServer name content =>
    refine hk.andThen ?_ fun _ => hk.pure _
    rcases s.serverPath_cases name with ⟨file, hmeans, hp⟩ | ⟨refusal, -, -, hp⟩
    · exact (covers hs h hmeans).createServer content hp
    · simp only [createServer, serverPathTask, hp]
      exact hk.refuse _
  | deleteServer name =>
    refine hk.andThen ?_ fun _ => hk.pure _
    rcases s.serverPath_cases name with ⟨file, hmeans, hp⟩ | ⟨refusal, -, -, hp⟩
    · exact (covers hs h hmeans).deleteServer hp
    · simp only [deleteServer, serverPathTask, hp]
      exact hk.refuse _
  | renameServer old new =>
    refine hk.andThen ?_ fun _ => hk.pure _
    rcases s.serverPath_cases old with ⟨source, hmeans, hp⟩ | ⟨refusal, -, -, hp⟩
    · rcases s.serverPath_cases new with ⟨target, hmeans', hp'⟩ | ⟨refusal, -, -, hp'⟩
      · exact (covers hs h (.inl hmeans)).renameServer (covers hs h (.inr hmeans')) hp hp'
      · unfold renameServer
        split
        · exact hk.done _
        · simp only [serverPathTask, hp, hp', pure_bind]
          exact hk.refuse _
    · unfold renameServer
      split
      · exact hk.done _
      · simp only [serverPathTask, hp]
        exact hk.refuse _
  | restoreBackup name =>
    refine hk.andThen (within_restoreBackup hs.resolved (fun hends => ?_) fun p hsafe hp => ?_)
      fun _ => hk.pure _
    · refine clear_backup hs h hends fun file hfile htells => ?_
      have hfree : file ≠ s.config.name := fun heq => hc (heq ▸ htells)
      exact h.apart file ⟨htells, h.named' file hfile, hfree⟩ hfile
    · rcases restoreTarget_spec hsafe hp with
        ⟨hown, -⟩ | ⟨file, htells, hfile, hserver, hfree, rfl⟩
      · exact absurd hown hc
      · have hmeans : s.Means (some file) file := ⟨Name.isServerName_of_safe hfile hserver, hfree⟩
        exact ⟨file, rfl, covers hs h ⟨htells, hmeans⟩⟩
  | _ => exact hc.elim

end Site
end ConfigSteward
