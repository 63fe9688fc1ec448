import ConfigSteward.Proofs.Backup.Keeping
import ConfigSteward.Proofs.Files.Resolving
import ConfigSteward.Proofs.Time.Stamps
import ConfigSteward.Proofs.World.Directory
import Mathlib.Logic.Function.Basic

/-!
# What a store keeps

Seen from outside, a store of backups is a map from names to snapshots: the artifact, the second in
which the backup was made, and its bytes. `Snapshots.Answers` says how calls read and change the map;
`Store.snapshots` reads the map off the files.
-/
namespace ConfigSteward

/-- What is kept of a file at some time. -/
structure Snapshot where
  artifact : String
  created : Civil
  bytes : Bytes
  deriving DecidableEq

/-- The snapshots under their names. -/
abbrev Snapshots := String → Option Snapshot

/-- A name that a backup may have. -/
def Name.IsBackup (name : String) : Prop :=
  Name.Safe name ∧ Name.endsIn Name.backupSuffix name = true

namespace Store

inductive Call where
  | create (artifact : String) (content : Bytes)
  | get (name : String)
  | delete (name : String)
  | list (wanted : Option String)

inductive Answer where
  | created (b : Backup)
  | content (bytes : Bytes)
  | deleted
  | listed (bs : List Backup)

def call (s : Store) : Call → Task Answer
  | .create artifact content => return .created (← s.create artifact content)
  | .get name => return .content (← s.get name)
  | .delete name => do
    s.delete name
    return .deleted
  | .list wanted => return .listed (← s.list wanted)

end Store

/-- The line for a snapshot in a listing. -/
def Snapshot.listed (e : Snapshot) (name : String) : Backup :=
  ⟨name, e.artifact, some e.created, e.bytes.length⟩

/-- The snapshot in a file: what its name tells and its bytes. -/
def Snapshot.ofFile? (name : String) (bytes : Bytes) : Option Snapshot := do
  let parts ← Name.parse? name
  let created ← (Stamp.readChars parts.stamp).toOption
  return ⟨String.ofList parts.artifact, created, bytes⟩

/-- Whether a snapshot is among those that a listing is asked for. -/
def Snapshot.Wanted (e : Snapshot) (wanted : Option String) : Prop :=
  wanted = none ∨ wanted = some "" ∨ wanted = some e.artifact

namespace Snapshots

variable {m : Snapshots}

/-- What looking a name up comes to. -/
inductive Finds (m : Snapshots) (name : String) : Except Failure Snapshot → Prop where
  | invalid (h : ¬ Name.IsBackup name) :
      Finds m name (.error (.refused (.invalidName ("Invalid backup name: " ++ name))))
  | missing (h : Name.IsBackup name) (none : m name = none) :
      Finds m name (.error (.refused (Store.noBackup name)))
  | found {e : Snapshot} (h : Name.IsBackup name) (some : m name = some e) : Finds m name (.ok e)

/-- How calls are answered and what they leave of the snapshots. -/
inductive Answers (m : Snapshots) :
    Store.Call → Except Failure Store.Answer → Snapshots → Prop where
  | adds {name : String} (e : Snapshot) (fresh : m name = none) :
      Answers m (.create e.artifact e.bytes) (.ok (.created (e.listed name)))
        (Function.update m name (some e))
  | balks {artifact : String} {content : Bytes} (message : String) :
      Answers m (.create artifact content) (.error (.refused (.backup message))) m
  | gets {name : String} {r : Except Failure Snapshot} (finds : m.Finds name r) :
      Answers m (.get name) (r.map fun e => .content e.bytes) m
  | deletes {name : String} {e : Snapshot} (finds : m.Finds name (.ok e)) :
      Answers m (.delete name) (.ok .deleted) (Function.update m name none)
  | misses {name : String} {failure : Failure} (finds : m.Finds name (.error failure)) :
      Answers m (.delete name) (.error failure) m
  | lists {wanted : Option String} {bs : List Backup}
      (descends : bs.Pairwise fun a b => b.name < a.name)
      (complete : ∀ b, b ∈ bs ↔ ∃ e, m b.name = some e ∧ e.Wanted wanted ∧ b = e.listed b.name) :
      Answers m (.list wanted) (.ok (.listed bs)) m

end Snapshots

namespace Store

variable {s : Store} {w v : World} {name : String} {bytes : Bytes} {mode : Nat} {changed : Changed}

/-- The snapshots in the store's folder. -/
def snapshots (s : Store) (t : Tree) : Snapshots :=
  fun name => (t.bytesAt (s.folder ++ [name])).bind (Snapshot.ofFile? name)

/-- The path of a backup is longer than any that the system takes. -/
def Far (s : Store) (name : String) : Prop := longestPath < (s.pathOf name).text.utf8ByteSize

/-- The call is about a backup whose path is too long. -/
def Strays (s : Store) (m : Snapshots) : Call → Prop
  | .get name | .delete name => Name.IsBackup name ∧ s.Far name
  | .list _ => ∃ name, m name ≠ none ∧ s.Far name
  | .create _ _ => False

/-- A name that is not too long, and whose path in the folder is not. -/
structure Fits (s : Store) (name : String) : Prop where
  short : name.length ≤ longestName
  near : ¬ s.Far name

/-- The name of a backup with a stamp that names a second. -/
structure Telling (name : String) : Prop where
  isBackup : Name.IsBackup name
  short : name.length ≤ longestName
  tells : ∃ parts created, Name.parse? name = some parts ∧
    Stamp.readChars parts.stamp = .ok created

/-- The store's folder is there and holds nothing but backups. -/
structure Keeps (s : Store) (w : World) : Prop where
  sound : w.Sound
  distinct : w.tree.Distinct
  straight : ".." ∉ s.folder
  flat : w.Flat s.folder.path s.folder
  telling : ∀ name, w.tree.get? (s.folder ++ [name]) ≠ none → Telling name
  noted : ∀ e ∈ w.noted, e.2.Valid ∧ 1000 ≤ e.2.year

theorem Telling.ofFile? (h : Telling name) (bytes : Bytes) :
    ∃ e, Snapshot.ofFile? name bytes = some e ∧ e.bytes = bytes := by
  obtain ⟨parts, created, hparse, hread⟩ := h.tells
  exact ⟨⟨String.ofList parts.artifact, created, bytes⟩,
    by simp [Snapshot.ofFile?, hparse, hread, Except.toOption], rfl⟩

/-- The name of a new backup tells what it was made from. -/
theorem ofFile?_writeBackup {artifact : String} {reading : Civil} {counter : Nat}
    (ha : Name.Safe artifact) (hr : reading.Valid) (hyear : 1000 ≤ reading.year)
    (hc : counter < 100) (bytes : Bytes) :
    Snapshot.ofFile? (Name.writeBackup artifact reading counter) bytes
      = some ⟨artifact, reading, bytes⟩ := by
  have hparse := Name.parse?_writeBackup ha.nonempty ha.line (hr.stampable hyear) hc
  have hread := Stamp.readChars_writeChars hr hyear
  simp [Snapshot.ofFile?, hparse, Name.partsOf, hread, Except.toOption]

theorem telling_writeBackup {artifact : String} {reading : Civil} {counter : Nat}
    (ha : Name.Safe artifact) (hr : reading.Valid) (hyear : 1000 ≤ reading.year)
    (hc : counter < 100) (hshort : (Name.writeBackup artifact reading counter).length ≤ longestName) :
    Telling (Name.writeBackup artifact reading counter) := by
  have hparse := Name.parse?_writeBackup ha.nonempty ha.line (hr.stampable hyear) hc
  exact ⟨⟨Name.safe_writeBackup ha (hr.stampable hyear) hc, Name.endsIn_writeBackup _ _ _⟩, hshort,
    _, _, hparse, Stamp.readChars_writeChars hr hyear⟩

end Store
end ConfigSteward
