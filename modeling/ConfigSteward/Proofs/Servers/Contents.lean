import ConfigSteward.Proofs.Files.Resolving
import ConfigSteward.Proofs.Save.Answering
import ConfigSteward.Proofs.Site.Effects
import ConfigSteward.Proofs.World.Directory
import ConfigSteward.Proofs.World.Faltering
import Mathlib.Logic.Function.Basic

/-!
# What a folder of servers holds

Seen from outside, the server files of a site are a map from names to contents. `Contents.Answers`
says how calls read and change the map, and `Contents.Bears` how they may do so where calls to the
files fail; `Tree.contents` reads the map off a folder. A folder `Shows` the map as long as it holds
nothing but files, whose paths are not too long, and no backups.
-/
namespace ConfigSteward

/-- What files hold, under their names. -/
abbrev Contents := String → Option Bytes

namespace Site

/-- The name of the server file that a given name means. -/
def Means (s : Site) (given : Option String) (file : String) : Prop :=
  Name.normalizeServer given = .ok file ∧ file ≠ s.config.name

theorem Means.unique {s : Site} {given : Option String} {file file' : String}
    (h : s.Means given file) (h' : s.Means given file') : file = file' :=
  Except.ok.inj (h.1.symm.trans h'.1)

/-- The names that a call is given for server files. -/
def Call.given : Call → List (Option String)
  | readServer name | saveServer name _ | createServer name _ | deleteServer name => [name]
  | renameServer old new => [old, new]
  | _ => []

end Site

/-- How calls on server files are answered and what they leave of the contents. The outcomes of one
call exclude each other, apart from those of a save, which are told apart by what it answers. -/
inductive Contents.Answers (m : Contents) (s : Site) :
    Site.Call → Except Failure Site.Answer → Contents → Prop where
  | invalid {c : Site.Call} {name : Option String} {refusal : Refusal} (given : name ∈ c.given)
      (bad : ∀ file, ¬ s.Means name file) (kind : refusal.kind = .invalidName) :
      Answers m s c (.error (.refused refusal)) m
  | reads {name : Option String} {file : String} {bytes : Bytes} (means : s.Means name file)
      (present : m file = some bytes) :
      Answers m s (.readServer name)
        (.ok (.server ⟨file, Text.decodeLossy bytes, s.servers.child file⟩)) m
  | readsNone {name : Option String} {file : String} (means : s.Means name file)
      (absent : m file = none) :
      Answers m s (.readServer name)
        (.error (.refused (.notFound ("server file " ++ file ++ " not found")))) m
  | saves {name : Option String} {content : RawText} {bytes : Bytes} {file : String} {o : Outcome}
      (means : s.Means name file) (encoded : content.encode = .ok bytes) (lasting : o.Lasting) :
      Answers m s (.saveServer name content) (.ok (.outcome o)) (Function.update m file (some bytes))
  | keeps {name : Option String} {content : RawText} {file : String} {o : Outcome}
      (means : s.Means name file) (undone : ¬ o.Lasting) :
      Answers m s (.saveServer name content) (.ok (.outcome o)) m
  | unencodable {name : Option String} {content : RawText} {text : BrokenText} {file : String}
      (means : s.Means name file) (encoded : content.encode = .error text) :
      Answers m s (.saveServer name content) (.error (.unencodable text)) m
  | creates {name : Option String} {content : Option RawText} {bytes : Bytes} {file : String}
      (means : s.Means name file) (encoded : (Site.newContent content).encode = .ok bytes)
      (absent : m file = none) :
      Answers m s (.createServer name content) (.ok (.created (s.servers.child file)))
        (Function.update m file (some bytes))
  | createsNone {name : Option String} {content : Option RawText} {file : String}
      (means : s.Means name file) (present : m file ≠ none) :
      Answers m s (.createServer name content) (.error (.refused
        ⟨.alreadyExists, some "file already exists", [("name", .text file)]⟩)) m
  | renames {old new : Option String} {source target : String} {bytes : Bytes}
      (means : s.Means old source) (means' : s.Means new target)
      (present : m source = some bytes) (absent : m target = none) :
      Answers m s (.renameServer old new) (.ok (.renamed source target))
        (Function.update (Function.update m source none) target (some bytes))
  | renamesNone {old new : Option String} {source target : String} (means : s.Means old source)
      (means' : s.Means new target) (absent : m source = none) :
      Answers m s (.renameServer old new) (.error (.refused (Site.noFile source))) m
  | renamesOnto {old new : Option String} {source target : String} (means : s.Means old source)
      (means' : s.Means new target) (present : m source ≠ none) (present' : m target ≠ none) :
      Answers m s (.renameServer old new) (.error (.refused
        ⟨.alreadyExists, some "target file already exists", [("name", .text target)]⟩)) m
  | deletes {name : Option String} {file : String} (backup : Option String)
      (means : s.Means name file) (present : m file ≠ none) :
      Answers m s (.deleteServer name) (.ok (.deleted backup)) (Function.update m file none)
  | deletesNone {name : Option String} {file : String} (means : s.Means name file)
      (absent : m file = none) :
      Answers m s (.deleteServer name) (.error (.refused (Site.noFile file))) m
  | lists {entries : List ServerEntry} (ascends : entries.Pairwise fun a b => a.name < b.name)
      (listed : ∀ e ∈ entries, Name.endsIn Name.serverSuffix e.name = true ∧
        e.path = s.servers.child e.name ∧ ∃ bytes, m e.name = some bytes ∧ e.size = bytes.length)
      (complete : ∀ name, m name ≠ none → Name.endsIn Name.serverSuffix name = true →
        ∃ e ∈ entries, e.name = name) :
      Answers m s .listServers (.ok (.servers entries)) m

/-- How calls on server files may be answered amid mishaps, and what they leave of the contents. A new
file that could not be filled stays with what it got of its content, which is nothing where the content
cannot be encoded. Any other call that a mishap ended leaves all as it was. -/
inductive Contents.Bears (m : Contents) (s : Site) (hazard : Hazard) :
    Site.Call → Except Failure Site.Answer → Contents → Prop where
  | answers {c : Site.Call} {r : Except Failure Site.Answer} {m' : Contents}
      (answers : m.Answers s c r m') : Bears m s hazard c r m'
  | begins {name : Option String} {content : Option RawText} {bytes : Bytes} {file message : String}
      (k : Nat) (means : s.Means name file)
      (encoded : (Site.newContent content).encode = .ok bytes) (absent : m file = none)
      (tears : hazard.Tears) :
      Bears m s hazard (.createServer name content) (.error (.refused (.fileAccess message)))
        (Function.update m file (some (bytes.take k)))
  | hollow {name : Option String} {content : Option RawText} {text : BrokenText} {file : String}
      (means : s.Means name file) (encoded : (Site.newContent content).encode = .error text)
      (absent : m file = none) :
      Bears m s hazard (.createServer name content) (.error (.unencodable text))
        (Function.update m file (some []))
  | stumbles {c : Site.Call} {failure : Failure} (spares : ¬ c.Saves)
      (stumbles : Stumbles hazard failure) : Bears m s hazard c (.error failure) m

/-- Where nothing goes wrong and a new file gets a content that can be encoded, the map answers. -/
theorem Contents.Bears.answers_of_none {m m' : Contents} {s : Site} {c : Site.Call}
    {r : Except Failure Site.Answer} (h : m.Bears s .none c r m')
    (hencodes : ∀ name content, c = .createServer name content →
      ∃ bytes, (Site.newContent content).encode = .ok bytes) : m.Answers s c r m' := by
  cases h with
  | answers answers => exact answers
  | begins _ _ _ _ tears =>
    obtain ⟨_, _, _, _, hstrikes⟩ := tears
    exact hstrikes.elim
  | hollow _ encoded =>
    obtain ⟨bytes, hbytes⟩ := hencodes _ _ rfl
    cases hbytes.symm.trans encoded
  | stumbles _ stumbles => exact absurd stumbles not_stumbles_none

namespace Contents.Answers

variable {s : Site} {m m' : Contents} {r : Except Failure Site.Answer} {file source target : String}
  {name old new : Option String} {content : Option RawText} {bytes : Bytes}

/-- A server file that is not there is made. -/
theorem created (h : m.Answers s (.createServer name content) r m') (means : s.Means name file)
    (encoded : (Site.newContent content).encode = .ok bytes) (absent : m file = none) :
    r = .ok (.created (s.servers.child file)) ∧ m' = Function.update m file (some bytes) := by
  cases h with
  | invalid given bad =>
    obtain rfl := List.mem_singleton.mp given
    exact absurd means (bad file)
  | creates means' encoded' =>
    obtain rfl := means.unique means'
    obtain rfl := Except.ok.inj (encoded.symm.trans encoded')
    exact ⟨rfl, rfl⟩
  | createsNone means' present =>
    obtain rfl := means.unique means'
    exact absurd absent present

/-- A server file that is there goes by a name that is not. -/
theorem renamed (h : m.Answers s (.renameServer old new) r m') (means : s.Means old source)
    (means' : s.Means new target) (present : m source = some bytes) (absent : m target = none) :
    r = .ok (.renamed source target) ∧
      m' = Function.update (Function.update m source none) target (some bytes) := by
  cases h with
  | invalid given bad =>
    rcases List.mem_pair.mp given with rfl | rfl
    · exact absurd means (bad source)
    · exact absurd means' (bad target)
  | renames means₁ means₂ present' =>
    obtain rfl := means.unique means₁
    obtain rfl := means'.unique means₂
    obtain rfl := Option.some.inj (present.symm.trans present')
    exact ⟨rfl, rfl⟩
  | renamesNone means₁ means₂ absent' =>
    obtain rfl := means.unique means₁
    cases present.symm.trans absent'
  | renamesOnto means₁ means₂ _ present' =>
    obtain rfl := means'.unique means₂
    exact absurd absent present'

end Contents.Answers

namespace Tree

variable {t t' : Tree} {folder place : Place} {name : String} {bytes : Bytes} {node : Option Node}

/-- What the files in a folder hold. -/
def contents (t : Tree) (folder : Place) : Contents := fun name => t.bytesAt (folder ++ [name])

private theorem contents_of_sets (hset : t.Sets (folder ++ [name]) node t') :
    t'.contents folder = Function.update (t.contents folder) name (t'.contents folder name) := by
  funext other
  by_cases hother : other = name
  · rw [hother, Function.update_self]
  · rw [Function.update_of_ne hother, contents, contents,
      bytesAt_congr (hset.other (by simpa using hother))]

private theorem contents_of_elsewhere (hset : t.Sets place node t')
    (hplace : ∀ name, folder ++ [name] ≠ place) : t'.contents folder = t.contents folder :=
  funext fun name => bytesAt_congr (hset.other (hplace name))

end Tree

namespace Site

variable {s : Site} {w v : World} {folder place : Place} {m : Contents} {file name artifact : String}
  {content : Bytes} {mode : Nat} {changed : Changed} {node : Option Node}

theorem Means.serverPath_eq {given : Option String} (h : s.Means given file) :
    s.serverPath given = .ok (s.servers.child file) := by
  rw [serverPath, h.1]
  exact if_neg h.2

/-- A given name means a server file, or it is refused. -/
theorem serverPath_cases (s : Site) (name : Option String) :
    (∃ file, s.Means name file ∧ s.serverPath name = .ok (s.servers.child file)) ∨
      ∃ refusal, (∀ file, ¬ s.Means name file) ∧ refusal.kind = .invalidName ∧
        s.serverPath name = .error refusal := by
  rcases hname : Name.normalizeServer name with refusal | file
  · refine .inr ⟨refusal, fun file hmeans => ?_, Name.normalizeServer_refuses hname, ?_⟩
    · rw [hmeans.1] at hname
      cases hname
    · rw [serverPath, hname]
  · by_cases hfree : file = s.config.name
    · refine .inr ⟨⟨.invalidName, some (file ++ " is reserved for the primary config"),
        [("name", .text file)]⟩, fun file' hmeans => ?_, rfl, ?_⟩
      · rw [Except.ok.inj (hmeans.1.symm.trans hname)] at hmeans
        exact hmeans.2 hfree
      · rw [serverPath, hname]
        exact if_pos hfree
    · have hmeans : s.Means name file := ⟨hname, hfree⟩
      exact .inl ⟨file, hmeans, hmeans.serverPath_eq⟩

/-- A name that an entry can have, and whose path in the folder of servers is not too long. -/
structure Fits (s : Site) (name : String) : Prop where
  plain : Tree.Plain name
  reachable : (s.servers.child name).text.utf8ByteSize ≤ longestPath

/-- The folder of servers is there and holds nothing but files, and the backups are elsewhere. -/
structure Serves (s : Site) (w : World) (folder : Place) : Prop where
  sound : w.Sound
  distinct : w.tree.Distinct
  flat : w.Flat s.servers folder
  apart : ∀ place, w.tree.walk true w.here s.store.folder.path = .ok place → place ≠ folder
  fits : ∀ name, w.tree.get? (folder ++ [name]) ≠ none → s.Fits name

/-- The folder of servers holds just these contents. -/
structure Shows (s : Site) (folder : Place) (m : Contents) (w : World) : Prop extends
    s.Serves w folder where
  holds : w.tree.contents folder = m

namespace Serves

variable (h : s.Serves w folder)
include h

theorem lands (hfile : s.Fits file) : w.Lands (s.servers.child file) (folder ++ [file]) :=
  h.flat.lands hfile.plain hfile.reachable

theorem resolves (hfile : Tree.Plain file) :
    w.tree.resolve w.here (s.servers.child file) = .ok (folder ++ [file]) := by
  obtain ⟨-, hleads⟩ := Tree.walk_eq_ok_iff.mp h.flat.walk
  exact Tree.resolve_of_leads ((hleads.snoc h.flat.there hfile).follow_of_leaf (h.flat.leaf file))

theorem outside (file : String) : s.store.Outside w (folder ++ [file]) := by
  intro place hwalk hplace
  rw [List.dropLast_concat] at hplace
  exact h.apart place hwalk hplace.symm

/-- A file is written or taken away, in the folder of servers or elsewhere. -/
theorem of_sets (hset : w.tree.Sets place node v.tree) (hhere : v.here = w.here)
    (hleaf : w.tree.skeleton place = none) (hleaf' : v.tree.skeleton place = none)
    (hsound : v.Sound) (hdistinct : v.tree.Distinct)
    (hfits : ∀ name, folder ++ [name] = place → s.Fits name) : s.Serves v folder := by
  have hsame := hset.skeleton_eq hleaf hleaf'
  refine ⟨hsound, hdistinct, h.flat.of_skeleton hsame hhere, fun place' hwalk => ?_,
    fun name hname => ?_⟩
  · rw [hhere] at hwalk
    exact h.apart place' (Tree.walk_mono (.of_eq fun q => (hsame q).symm) hwalk)
  · by_cases hplace : folder ++ [name] = place
    · exact hfits name hplace
    · rw [hset.other hplace] at hname
      exact h.fits name hname

end Serves

namespace Shows

variable (h : s.Shows folder m w)
include h

theorem vacant_iff : m file = none ↔ w.tree.get? (folder ++ [file]) = none := by
  rw [← h.holds, Tree.contents]
  rcases Tree.skeleton_eq_none_iff.mp (h.flat.leaf file) with hget | ⟨bytes, mode, changed, hget⟩
  · simp [Tree.bytesAt, hget]
  · simp [Tree.bytesAt, hget]

theorem file_of_some (hbytes : m file = some content) :
    ∃ mode changed, w.tree.get? (folder ++ [file]) = some (.file content mode changed) := by
  rw [← h.holds] at hbytes
  exact Tree.bytesAt_eq_some_iff.mp hbytes

theorem of_alike (halike : w.Alike v) : s.Shows folder m v := by
  obtain ⟨htree, hhere⟩ := halike
  refine ⟨⟨World.Alike.sound ⟨htree, hhere⟩ h.sound, htree ▸ h.distinct,
    h.flat.of_alike ⟨htree, hhere⟩, ?_, ?_⟩, ?_⟩
  · rw [htree, hhere]
    exact h.apart
  · rw [htree]
    exact h.fits
  · rw [htree, h.holds]

/-- A backup is made elsewhere. -/
theorem backs (hslot : s.store.Slot w artifact name place) (content : Bytes) :
    s.Shows folder m ((w.noting artifact).withFile place content) := by
  have hset : w.tree.Sets place _ ((w.noting artifact).withFile place content).tree :=
    Tree.put_sets hslot.lands.ne_nil _
  have helsewhere (file : String) : folder ++ [file] ≠ place :=
    hslot.ne_outside h.sound (h.outside file)
  have hsound : ((w.noting artifact).withFile place content).Sound :=
    ((w.noting_alike artifact).lands hslot.lands).put_sound ((w.noting_alike artifact).sound h.sound)
      _ _ _
  refine ⟨h.of_sets hset rfl hslot.lands.leaf (Tree.skeleton_of_file hset.self) hsound
    (h.distinct.put _ _) fun file hfile => absurd hfile (helsewhere file), ?_⟩
  rw [Tree.contents_of_elsewhere hset helsewhere, h.holds]

/-- A server file is written. -/
theorem puts (hfile : s.Fits file) (content : Bytes) (mode : Nat) (changed : Changed) :
    s.Shows folder (Function.update m file (some content))
      { w with tree := w.tree.put (folder ++ [file]) (.file content mode changed) } := by
  have hlands := h.lands hfile
  have hset : w.tree.Sets (folder ++ [file]) _ _ :=
    Tree.put_sets (by simp) (.file content mode changed)
  refine ⟨h.of_sets hset rfl hlands.leaf (Tree.skeleton_of_file hset.self)
    (hlands.put_sound h.sound content mode changed) (h.distinct.put _ _) fun name hname => ?_, ?_⟩
  · rwa [List.singleton_inj.mp (List.append_cancel_left hname)]
  · rw [Tree.contents_of_sets hset, h.holds, Tree.contents,
      Tree.bytesAt_eq_some_iff.mpr ⟨mode, changed, hset.self⟩]

/-- A server file is taken away. -/
theorem removes (hfile : s.Fits file) :
    s.Shows folder (Function.update m file none)
      { w with tree := w.tree.remove (folder ++ [file]) } := by
  have hlands := h.lands hfile
  have hset : w.tree.Sets (folder ++ [file]) none _ := Tree.remove_sets (by simp)
  have hsound : World.Sound { w with tree := w.tree.remove (folder ++ [file]) } := by
    refine ⟨hset.sound h.sound.tree hlands.ne_folder (by simpa using h.flat.there), ?_⟩
    exact (hset.other fun heq => hlands.ne_folder (heq ▸ h.sound.here)).trans h.sound.here
  refine ⟨h.of_sets hset rfl hlands.leaf (Tree.skeleton_of_vacant hset.self) hsound
    (h.distinct.remove _) fun name hname => ?_, ?_⟩
  · rwa [List.singleton_inj.mp (List.append_cancel_left hname)]
  · rw [Tree.contents_of_sets hset, h.holds, Tree.contents, Tree.bytesAt, hset.self]

end Shows

end Site
end ConfigSteward
