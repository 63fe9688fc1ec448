import ConfigSteward.Proofs.Backup.Keeping
import ConfigSteward.Site.Restore

/-!
# The files of a site

A site looks after its primary configuration and the server files under other names than that one's.
None of them is a backup, different ones have different places, and the name of a backup leads back
to the file that it was taken from.
-/
namespace ConfigSteward

namespace Name

variable {name file artifact suffix : String}

theorem endsIn_append (name suffix : String) : endsIn suffix (name ++ suffix) = true := by
  rw [endsIn, String.toList_append]
  exact List.isSuffixOf_iff_suffix.mpr (List.suffix_append _ _)

theorem endsIn_withServerSuffix (name : String) :
    endsIn serverSuffix (withServerSuffix name) = true := by
  unfold withServerSuffix
  split
  · assumption
  · exact endsIn_append name serverSuffix

/-- A given name stands for a safe name of a server file. -/
theorem normalizeServer_spec {name : Option String} (h : normalizeServer name = .ok file) :
    Safe file ∧ endsIn serverSuffix file = true ∧ isServerFile file = true := by
  unfold normalizeServer at h
  split at h
  · cases h
  · next name =>
    split at h
    · cases h
    · split at h
      · cases h
      · dsimp only at h
        split at h
        · next hgood =>
          cases h
          obtain ⟨hsafe, hserver⟩ := Bool.and_eq_true_iff.mp hgood
          have hends := endsIn_withServerSuffix name
          refine ⟨.of_isSafe hsafe ?_, hends, hserver⟩
          rw [getLast?_of_endsIn hends (by decide)]
          decide
        · cases h

/-- The name of a server file stands for itself. -/
theorem normalizeServer_of_safe (h : Safe file) (hends : endsIn serverSuffix file = true)
    (hlength : 5 < file.toList.length) : normalizeServer (some file) = .ok file := by
  have hserver : isServerFile file = true := by
    simp only [isServerFile, h.dropFinalBreak_eq, Bool.and_eq_true, decide_eq_true_eq,
      List.all_eq_true]
    exact ⟨⟨h.chars, hends⟩, hlength⟩
  have hplain : ¬ (decide (file = ".") || decide (file = "..")) = true := by
    simp [h.noDot, h.noUp]
  simp only [normalizeServer, if_neg h.nonempty, if_neg hplain, withServerSuffix_of_endsIn hends,
    h.isSafe, hserver, Bool.and_self, if_true]

/-- A given name that stands for no file is refused as invalid. -/
theorem normalizeServer_refuses {name : Option String} {refusal : Refusal}
    (h : normalizeServer name = .error refusal) : refusal.kind = .invalidName := by
  unfold normalizeServer at h
  split at h
  · cases h
    rfl
  · split at h
    · cases h
      rfl
    · split at h
      · cases h
        rfl
      · dsimp only at h
        split at h
        · cases h
        · cases h
          rfl

theorem endsIn_of_isServerFile (hsafe : Safe file) (h : isServerFile file = true) :
    endsIn serverSuffix file = true := by
  simp only [isServerFile, hsafe.dropFinalBreak_eq, Bool.and_eq_true] at h
  exact h.1.2

/-- The name of a server file is not that of a backup. -/
theorem not_backup_of_server (h : endsIn serverSuffix name = true) :
    ¬ endsIn backupSuffix name = true := by
  intro hbackup
  have hlast := getLast?_of_endsIn h (by decide)
  rw [getLast?_of_endsIn hbackup (by decide)] at hlast
  exact absurd hlast (by decide)

/-- A name that tells an artifact has the ending of backups, unless a line break comes after it. -/
theorem endsIn_of_artifactOf (h : artifactOf name = .ok artifact)
    (hbreak : dropFinalBreak name.toList = name.toList) : endsIn backupSuffix name = true := by
  obtain ⟨parts, ⟨-, htext⟩, -⟩ := artifactOf_eq_ok_iff_parts.mp h
  rw [endsIn, ← hbreak, htext]
  exact List.isSuffixOf_iff_suffix.mpr (List.suffix_append _ _)

/-- The artifact that a name tells is a part of the name. -/
theorem mem_of_artifactOf (h : artifactOf name = .ok artifact) :
    ∀ x ∈ artifact.toList, x ∈ name.toList := by
  have hpart {whole : String} (h : BackupOf Text.isDigit artifact whole) :
      ∀ x ∈ artifact.toList, x ∈ whole.toList := by
    obtain ⟨parts, -, hartifact, hwhole⟩ := h
    intro x hx
    simp [hwhole, BackupParts.text, BackupParts.body, hartifact, hx]
  rcases artifactOf_eq_ok_iff.mp h with hname | ⟨front, hfront, rfl⟩
  · exact hpart hname
  · intro x hx
    rw [String.toList_append]
    exact List.mem_append_left _ (hpart hfront x hx)

end Name

namespace Site

variable {s : Site} {p q : Path} {name backup : String} {here : Place}

/-- The files that a site looks after. -/
inductive Managed (s : Site) : Path → Prop where
  | config : Managed s s.config
  | server {name : String} (ends : Name.endsIn Name.serverSuffix name = true) :
      Managed s (s.servers.child name)

/-- The path is not the primary configuration's place under another spelling. -/
def Genuine (s : Site) (here : Place) (p : Path) : Prop :=
  p.placeFrom here = s.config.placeFrom here → p = s.config

/-- The files that calls change. Their backups can be told apart by name. -/
inductive Target (s : Site) : Path → Prop where
  | config (safe : Name.Safe s.config.name) : Target s s.config
  | server {file : String} (safe : Name.Safe file) (server : Name.isServerFile file = true)
      (free : file ≠ s.config.name) : Target s (s.servers.child file)

theorem Target.managed (h : s.Target p) : s.Managed p := by
  cases h with
  | config => exact .config
  | server safe server => exact .server (Name.endsIn_of_isServerFile safe server)

theorem Target.safe (h : s.Target p) : Name.Safe p.name := by
  cases h with
  | config safe => exact safe
  | server safe => rwa [Path.name_child]

theorem target_of_serverPath {name : Option String} (h : s.serverPath name = .ok p) :
    s.Target p := by
  unfold serverPath at h
  split at h
  · cases h
  · next file hfile =>
    split at h
    · cases h
    · next hfree =>
      cases h
      obtain ⟨hsafe, -, hserver⟩ := Name.normalizeServer_spec hfile
      exact .server hsafe hserver hfree

theorem refusal_of_serverPath {name : Option String} {refusal : Refusal}
    (h : s.serverPath name = .error refusal) : refusal.kind = .invalidName := by
  unfold serverPath at h
  split at h
  · next hname =>
    cases h
    exact Name.normalizeServer_refuses hname
  · split at h
    · cases h
      rfl
    · cases h

theorem child_of_serverPath {name : Option String} (h : s.serverPath name = .ok p) :
    ∃ file, p = s.servers.child file := by
  unfold serverPath at h
  split at h
  · cases h
  · split at h
    · cases h
    · cases h
      exact ⟨_, rfl⟩

/-- What a backup goes back to is a file that calls change. -/
theorem target_of_restoreTarget (hconfig : Name.Safe s.config.name) (hbackup : Name.Safe backup)
    (h : s.restoreTarget backup = .ok p) : s.Target p := by
  unfold restoreTarget at h
  split at h
  · cases h
  · next artifact hartifact =>
    split at h
    · cases h
      exact .config hconfig
    · next hfree =>
      split at h
      · next hgood =>
        cases h
        obtain ⟨hserver, hsafe⟩ := Bool.and_eq_true_iff.mp hgood
        have hbreak : artifact.toList.getLast? ≠ some '\n' := by
          intro hlast
          have hmem := Name.mem_of_artifactOf hartifact _ (List.mem_of_getLast? hlast)
          exact absurd (hbackup.chars _ hmem) (by decide)
        exact .server (.of_isSafe hsafe hbreak) hserver hfree
      · cases h

/-- A backup whose name tells a file's name goes back to the file. -/
theorem Target.restoreTarget_eq (h : s.Target p) (hname : Name.artifactOf backup = .ok p.name) :
    s.restoreTarget backup = .ok p := by
  unfold restoreTarget
  rw [hname]
  cases h with
  | config => simp
  | server safe server free =>
    rw [Path.name_child]
    simp [free, server, safe.isSafe]

theorem ne_up_of_server (h : Name.endsIn Name.serverSuffix name = true) : name ≠ ".." := by
  rintro rfl
  exact absurd h (by decide)

/-- A server file that calls change has a place of its own. -/
theorem ne_config_of_server (hconfig : Name.Safe s.config.name)
    (h : Name.endsIn Name.serverSuffix name = true) (hfree : name ≠ s.config.name) :
    (s.servers.child name).placeFrom here ≠ s.config.placeFrom here := by
  have hparts : s.config.parts ≠ [] := by
    intro hparts
    exact hconfig.nonempty (by simp [Path.name, hparts])
  have hlast : s.config.placeFrom here = s.config.parent.placeFrom here ++ [s.config.name] := by
    rw [← Path.placeFrom_child _ _ hconfig.noUp, Path.child_parent_name hparts]
  rw [hlast, Path.placeFrom_child _ _ (ne_up_of_server h)]
  exact fun heq => hfree (List.singleton_inj.mp (List.append_inj_right' heq rfl))

/-- A file that calls change is the only one at its place that the site looks after. -/
theorem Target.eq_of_place (h : s.Target p) (hconfig : Name.Safe s.config.name) (hq : s.Managed q)
    (hgenuine : s.Genuine here q) (heq : q.placeFrom here = p.placeFrom here) : q = p := by
  cases h with
  | config => exact hgenuine heq
  | server safe server free =>
    have hends := Name.endsIn_of_isServerFile safe server
    cases hq with
    | config => exact absurd heq.symm (ne_config_of_server hconfig hends free)
    | server ends =>
      rw [Path.placeFrom_child _ _ (ne_up_of_server hends),
        Path.placeFrom_child _ _ (ne_up_of_server ends)] at heq
      rw [List.singleton_inj.mp (List.append_inj_right' heq rfl)]

private theorem not_owned_server (h : Name.endsIn Name.serverSuffix name = true) (here : Place) :
    ¬ s.store.Owns ((s.servers.child name).placeFrom here) := by
  rintro ⟨backup, hbackup, heq⟩
  rw [Path.placeFrom_child _ _ (ne_up_of_server h)] at heq
  obtain rfl := List.singleton_inj.mp (List.append_inj_right' heq rfl)
  exact Name.not_backup_of_server h hbackup

/-- A file that the site looks after is no backup. -/
theorem Managed.not_owned (h : s.Managed p)
    (hplace : (s.config.placeFrom here).dropLast ≠ s.store.folder) :
    ¬ s.store.Owns (p.placeFrom here) := by
  cases h with
  | config =>
    rintro ⟨backup, -, heq⟩
    rw [heq, List.dropLast_concat] at hplace
    exact hplace rfl
  | server ends => exact not_owned_server ends here

end Site
end ConfigSteward
