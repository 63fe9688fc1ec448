import ConfigSteward.Proofs.Save.Staying
import ConfigSteward.Proofs.Site.ServerFiles
import ConfigSteward.Proofs.Text.Utf8
import ConfigSteward.Proofs.World.Noon

/-!
# Texts that are read back

A text that was saved or that a server file was created with is what reading gives. Saving what was
read changes the bytes of a file only where they spell no text.
-/
namespace ConfigSteward

open Plan World

namespace Site

variable {s : Site} {w v : World} {p : Path} {name : Option String} {text : String} {bytes : Bytes}

/-- A save ends with the new content in place, and the programs that it runs leave it there. -/
structure Stays (save : Task Outcome) (w : World) (p : Path) (v : World) : Prop where
  applied : ∃ o, save.run.run w = (.ok o, v) ∧ o.applied = true
  spared : ∀ e ∈ save.run.executions w, e.Spares p

theorem Stays.of_quiet {save : Task Outcome} {o : Outcome} (hquiet : w.Quiet)
    (hrun : save.run.run w = (.ok o, v)) (happlied : o.applied = true) : Stays save w p v := by
  refine ⟨⟨o, hrun, happlied⟩, fun e he => Execution.spares_of_quiet ?_ p⟩
  rw [Quiet, Plan.programs_of_executed he]
  exact hquiet

/-- Reading the primary configuration gives a text and changes nothing. -/
def ReadsConfig (s : Site) (w : World) (text : String) : Prop :=
  s.readConfig.run.run w = (.ok ⟨text, s.config⟩, w)

/-- Reading a server file gives a text and changes nothing. -/
def ReadsServer (s : Site) (w : World) (name : Option String) (p : Path) (text : String) : Prop :=
  (s.readServer name).run.run w = (.ok ⟨p.name, text, p⟩, w)

theorem does_readText (hread : w.read p = .ok bytes) (label : String) :
    (readText p label).run.Does (· = w) w fun r v _ =>
      r = .ok (Text.decodeLossy bytes) ∧ v = w := by
  rw [readText]
  refine does_andThen.mpr (Task.does_attemptFile.mpr (FileTask.does_read.mpr ⟨rfl, ?_⟩))
  rw [hread]
  exact does_pure.mpr ⟨rfl, rfl, rfl⟩

private theorem readsConfig (hread : w.read s.config = .ok bytes) :
    s.ReadsConfig w (Text.decodeLossy bytes) := by
  have hdoes : s.readConfig.run.Does (· = w) w fun r v _ =>
      r = .ok ⟨Text.decodeLossy bytes, s.config⟩ ∧ v = w := by
    rw [readConfig]
    refine does_andThen.mpr ((does_readText hread _).mono (fun _ hv => hv) ?_)
    rintro r v es ⟨rfl, rfl⟩
    exact does_pure.mpr ⟨rfl, rfl, rfl⟩
  exact Prod.ext hdoes.ends.1 hdoes.ends.2

private theorem readsServer (hp : s.serverPath name = .ok p) (hread : w.read p = .ok bytes) :
    s.ReadsServer w name p (Text.decodeLossy bytes) := by
  have hdoes : (s.readServer name).run.Does (· = w) w fun r v _ =>
      r = .ok ⟨p.name, Text.decodeLossy bytes, p⟩ ∧ v = w := by
    rw [readServer]
    refine does_andThen.mpr (does_serverPathTask.mpr ⟨rfl, ?_⟩)
    rw [hp]
    refine does_andThen.mpr ((does_readText hread _).mono (fun _ hv => hv) ?_)
    rintro r v es ⟨rfl, rfl⟩
    exact does_pure.mpr ⟨rfl, rfl, rfl⟩
  exact Prod.ext hdoes.ends.1 hdoes.ends.2

private theorem saveServer_eq (hp : s.serverPath name = .ok p) (text : String) :
    s.saveServer name (.whole text) = (s.serverSave p text).run s.store s.controller := by
  rw [saveServer, serverPathTask, hp]
  rfl

theorem Stays.read (save : Save) (h : Stays (save.run s.store s.controller) w save.path v)
    (hw : w.Sound) (hstraight : w.Straight save.path) : v.read save.path = .ok save.content := by
  obtain ⟨⟨o, hrun, happlied⟩, hspared⟩ := h
  have hends := (Save.does_run_keeps hw hstraight s.store s.controller).ends
  rw [hrun] at hends
  exact (hends hspared o rfl happlied).2

/-- The bytes that stay are those of the text. -/
theorem Stays.saveConfig (h : Stays (s.saveConfig text) w s.config v) (hw : w.Sound)
    (hstraight : w.Straight s.config) : v.read s.config = .ok (Text.encodeString text) :=
  Stays.read (s.configSave text) h hw hstraight

theorem Stays.saveServer (h : Stays (s.saveServer name text) w p v) (hw : w.Sound)
    (hp : s.serverPath name = .ok p) (hstraight : w.Straight p) :
    v.read p = .ok (Text.encodeString text) := by
  rw [saveServer_eq hp] at h
  exact Stays.read (s.serverSave p text) h hw hstraight

/-- What a new server file was made with is at its path. -/
theorem read_created {text : String} (hne : text ≠ "")
    (h : (s.createServer name (some text)).run.run w = (.ok p, v)) :
    s.serverPath name = .ok p ∧ v.read p = .ok (Text.encodeString text) := by
  have hends := (s.does_createServer_ends w name (some text)).ends
  have hcontent : newContent (some text) = .whole text := if_neg fun h => hne (RawText.whole.inj h)
  rw [h, hcontent] at hends
  obtain ⟨-, ⟨⟩, -⟩ | ⟨q, place, hq, hvacancy, ⟨⟩, rfl⟩ := hends
  have hlands := (vacancy_eq_ok_iff.mp hvacancy).1
  exact ⟨hq, (hlands.at_put _ _ _).read_file (hlands.get_put _)⟩

/-- Saving back what was read leaves the bytes exactly if they spell a text. -/
theorem saved_back_iff (h : v.read p = .ok (Text.encodeString (Text.decodeLossy bytes))) :
    v.read p = .ok bytes ↔ bytes.toByteArray.IsValidUTF8 := by
  rw [h, Except.ok.injEq, Text.encodeString_decodeLossy_iff]

/-- A text that is saved and stays, or that a server file is made with, is read as it is. Bytes that are
read and saved back are those from before exactly if they are UTF-8, and are read as the same text
whatever they are. -/
theorem texts_read_back (s : Site) (hw : w.Sound) :
    (∀ (text : String) v, w.Straight s.config → Stays (s.saveConfig text) w s.config v →
      s.ReadsConfig v text) ∧
    (∀ name p (text : String) v, s.serverPath name = .ok p → w.Straight p →
      Stays (s.saveServer name text) w p v → s.ReadsServer v name p text) ∧
    (∀ name p (text : String) v, text ≠ "" → (s.createServer name (some text)).run.run w = (.ok p, v) →
      s.ReadsServer v name p text) ∧
    (∀ bytes, w.read s.config = .ok bytes → ∃ text, s.ReadsConfig w text ∧
      ∀ v, Stays (s.saveConfig text) w s.config v →
        (v.read s.config = .ok bytes ↔ bytes.toByteArray.IsValidUTF8) ∧ s.ReadsConfig v text) ∧
    ∀ name p bytes, s.serverPath name = .ok p → w.read p = .ok bytes → ∃ text,
      s.ReadsServer w name p text ∧ ∀ v, Stays (s.saveServer name text) w p v →
        (v.read p = .ok bytes ↔ bytes.toByteArray.IsValidUTF8) ∧ s.ReadsServer v name p text := by
  have hconfig {text : String} {v : World} (h : v.read s.config = .ok (Text.encodeString text)) :
      s.ReadsConfig v text := Text.decodeLossy_encodeString text ▸ readsConfig h
  have hserver {name : Option String} {p : Path} {text : String} {v : World}
      (hp : s.serverPath name = .ok p) (h : v.read p = .ok (Text.encodeString text)) :
      s.ReadsServer v name p text := Text.decodeLossy_encodeString text ▸ readsServer hp h
  refine ⟨fun text v hstraight h => hconfig (h.saveConfig hw hstraight),
    fun name p text v hp hstraight h => hserver hp (h.saveServer hw hp hstraight),
    fun name p text v hne h => ?_, fun bytes hread => ⟨_, readsConfig hread, fun v h => ?_⟩,
    fun name p bytes hp hread => ⟨_, readsServer hp hread, fun v h => ?_⟩⟩
  · obtain ⟨hp, hcreated⟩ := read_created hne h
    exact hserver hp hcreated
  · have hsaved := h.saveConfig hw (straight_of_read hw hread)
    exact ⟨saved_back_iff hsaved, hconfig hsaved⟩
  · have hsaved := h.saveServer hw hp (straight_of_read hw hread)
    exact ⟨saved_back_iff hsaved, hserver hp hsaved⟩

/-- A configuration with a byte that spells nothing. All programs end well. -/
def garbled : World :=
  .atNoon ⟨[(["b"], .folder), (["s"], .folder), (["f"], .file [104, 255] 0o640 (.known 0))]⟩ (.ok .well)

def garbledSite : Site :=
  { config := ⟨.one, ["f"]⟩, servers := ⟨.one, ["s"]⟩, store := ⟨["b"]⟩, controller := {} }

/-- What was read is saved. -/
def mended : World :=
  { garbled with
    tree := ⟨[(["f"], .file [104, 239, 191, 189] 0o640 .lately),
      (["b", "f.20240501_120000.backup"], .file [104, 255] 0o644 .lately), (["b"], .folder),
      (["s"], .folder)]⟩
    noted := [("f", ⟨2024, 5, 1, 12, 0, 0⟩)]
    ran := [garbledSite.controller.reloadArgs,
      (garbledSite.configSave "h\uFFFD").checkArgs garbledSite.controller] }

private theorem save_garbled : (garbledSite.saveConfig "h\uFFFD").run.run garbled
    = (.ok (((garbledSite.configSave "h\uFFFD").checked "f.20240501_120000.backup" .well).afterReload
      .well), mended) := by cbv

/-- A server file is made of line ends, a null character and a mark of the byte order. -/
def lined : World := garbled.withFile ["s", "x.conf"] [13, 10, 13, 0, 239, 187, 191]

private theorem create_lined :
    (garbledSite.createServer (some "x") (some "\r\n\r\x00\uFEFF")).run.run garbled
      = (.ok ⟨.one, ["s", "x.conf"]⟩, lined) := by cbv

/-- The byte is read as a replacement character, which is saved in its place. -/
theorem texts_read_back_garbled : garbled.Sound ∧ garbledSite.ReadsConfig garbled "h\uFFFD" ∧
    Stays (garbledSite.saveConfig "h\uFFFD") garbled garbledSite.config mended ∧
      garbledSite.ReadsConfig mended "h\uFFFD" ∧
      ¬ (List.toByteArray [104, 255]).IsValidUTF8 ∧
      garbledSite.ReadsServer lined (some "x") ⟨.one, ["s", "x.conf"]⟩ "\r\n\r\x00\uFEFF" := by
  have hw : garbled.Sound := ⟨Tree.sound_of_entries (by decide), rfl⟩
  have hread : garbled.read garbledSite.config = .ok [104, 255] := by cbv
  have hstays : Stays (garbledSite.saveConfig "h\uFFFD") garbled garbledSite.config mended :=
    .of_quiet (fun _ _ _ => rfl) save_garbled rfl
  have hreads : garbledSite.ReadsConfig garbled "h\uFFFD" := by
    rw [ReadsConfig]
    cbv
  obtain ⟨-, -, hcreated, hconfig, -⟩ := texts_read_back garbledSite hw
  obtain ⟨text, htext, hback⟩ := hconfig _ hread
  have heq := congrArg Prod.fst (htext.symm.trans hreads)
  obtain rfl : text = "h\uFFFD" := (Document.mk.inj (Except.ok.inj heq)).1
  obtain ⟨hbytes, hagain⟩ := hback _ hstays
  refine ⟨hw, hreads, hstays, hagain, fun hvalid => ?_, hcreated _ _ _ _ (by decide) create_lined⟩
  have hmended : mended.read garbledSite.config = .ok [104, 239, 191, 189] := by cbv
  cases hmended.symm.trans (hbytes.mpr hvalid)

def knottedSite : Site := { garbledSite with config := ⟨.one, ["a", "..", "d", "l", "l"]⟩ }

/-- The world that the save leaves: the link is gone. -/
def unknotted : World :=
  { World.knotted with
    tree := ⟨[(["d", "l"], .file [110, 101, 119] 0o755 .lately), (["a"], .folder),
      (["b", "l.20240501_120000.backup"], .file [] 0o644 .lately), (["b"], .folder),
      (["d"], .folder)]⟩
    noted := [("l", ⟨2024, 5, 1, 12, 0, 0⟩)]
    ran := [knottedSite.controller.reloadArgs,
      (knottedSite.configSave "new").checkArgs knottedSite.controller] }

private theorem save_knotted : (knottedSite.saveConfig "new").run.run World.knotted
    = (.ok (((knottedSite.configSave "new").checked "l.20240501_120000.backup" .well).afterReload .well),
      unknotted) := by cbv

/-- A missing folder is made for the path, which then goes through a link and ends at it. The new text
takes the place of the link, stays there, and is not found. -/
theorem text_lost_through_link : World.knotted.Sound ∧
    Stays (knottedSite.saveConfig "new") World.knotted knottedSite.config unknotted ∧
      (knottedSite.readConfig.run.run unknotted).1 = .error (.refused
        (.fileAccess "Error reading config file: [Errno 20] Not a directory: '/a/../d/l/l'")) := by
  have hw : World.knotted.Sound := ⟨Tree.sound_of_entries (by decide), rfl⟩
  exact ⟨hw, .of_quiet (fun _ _ _ => rfl) save_knotted rfl, by cbv⟩

end Site
end ConfigSteward
