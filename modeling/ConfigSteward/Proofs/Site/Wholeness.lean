import Mathlib
import ConfigSteward.Proofs.Site.Restoring
import ConfigSteward.Proofs.World.Noon

/-!
# Restoring in full or not at all

A restore that returns has put the backup's content in place, kept the content from before in a backup
of its own and had the result checked. One that fails leaves its file alone, unless what fails is the
check: by then the new content is in place.
-/
namespace ConfigSteward

open Plan

namespace World

variable {w v u : World} {p : Path}

/-- The file at the end of a path is as it was. Where the path can be told to name one entry, so is
that entry. -/
structure Spares (w v : World) (p : Path) : Prop where
  bytes : v.tree.bytesAt (p.placeFrom w.here) = w.tree.bytesAt (p.placeFrom w.here)
  entry : w.Firm p → v.tree.get? (p.placeFrom w.here) = w.tree.get? (p.placeFrom w.here)

theorem Spares.of_get (h : v.tree.get? (p.placeFrom w.here) = w.tree.get? (p.placeFrom w.here)) :
    w.Spares v p := ⟨Tree.bytesAt_congr h, fun _ => h⟩

theorem Spares.trans (h : w.Spares v p) (h' : v.Spares u p) (hbelow : w.tree.Below v.tree)
    (hhere : v.here = w.here) : w.Spares u p :=
  ⟨by rw [← h.bytes, ← hhere, h'.bytes], fun hfirm => by
    rw [← h.entry hfirm, ← hhere, h'.entry (hfirm.mono hbelow hhere)]⟩

/-- Folders that are made above a path are not what it names. -/
theorem Dug.spares (hdug : w.Dug p.parent v) (hw : w.Regular) : w.Spares v p := by
  obtain ⟨t, ht, rfl⟩ := hdug
  have halters : w.Alters _ fun _ => False := .of_dug ⟨t, ht, rfl⟩
  refine ⟨halters.bytesAt id, ?_⟩
  rintro (hup | hstands)
  · rcases ht.entry (p.placeFrom w.here) with hsame | ⟨hnone, hfolder⟩
    · exact hsame
    · obtain ⟨front, hfront, hleads⟩ := ht.named hnone (by simp [hfolder])
      have hplace := hleads.collapse (ht.linkless hw.linkless)
      have hparts : front <+: p.parts := hfront.trans (List.dropLast_prefix _)
      rw [Path.placeFrom, Path.collapse_of_no_up hup,
        Path.collapse_of_no_up fun hin => hup (hparts.subset hin)] at hplace
      have hlen := congrArg List.length (List.append_cancel_left hplace)
      have hle := hfront.length_le
      rw [← hlen, Path.parent, List.length_dropLast] at hle
      have hnil : p.parts = [] := List.eq_nil_of_length_eq_zero (by omega)
      have hstart := Tree.get?_start hw.sound.here p
      simp only [Path.placeFrom, hnil, Path.collapse] at hnone
      rw [hstart] at hnone
      cases hnone
  · rw [hstands.eq_of_dug hw.sound ⟨t, ht, rfl⟩]

end World

namespace Site

open World

variable {s : Site} {w v u : World} {name b : String} {p : Path} {bytes : Bytes}

namespace BacksUp

variable {r : Except Failure (Option String)}

/-- Backing a file up leaves it alone. -/
theorem get?_eq (h : s.BacksUp w p r v) (hw : w.Regular) :
    v.tree.get? (p.placeFrom w.here) = w.tree.get? (p.placeFrom w.here) := by
  cases h with
  | without hv => rw [(World.alike_of_noting hv).1]
  | made hread hslot =>
    obtain ⟨-, mode, changed, hfile⟩ := hw.of_read hread
    refine (Tree.put_sets hslot.lands.ne_nil _).other ?_
    rintro rfl
    rw [hslot.vacant] at hfile
    cases hfile

/-- The backup of a file that is there keeps what the file held, whatever becomes of the file. -/
theorem read_kept (h : s.BacksUp w p (.ok (some b)) u) (hw : w.Regular)
    (hresolved : ".." ∉ s.store.folder) (halters : u.Alters v (· = p.placeFrom u.here)) :
    w.tree.get? (s.store.folder ++ [b]) = none ∧
      ∃ prior, w.read p = .ok prior ∧ v.read (s.store.pathOf b) = .ok prior := by
  have hu := h.regular hw
  have hhere := (h.alters_free hw hresolved).here
  cases h with
  | without _ hnone => exact absurd rfl (hnone b)
  | @made content _ place hread hslot =>
    obtain ⟨-, mode, changed, hfile⟩ := hw.of_read hread
    have hplace := hw.place_eq hslot.lands.walk
    rw [Store.placeFrom_pathOf hresolved hslot.endsIn] at hplace
    refine ⟨hplace ▸ hslot.vacant, content, hread, ?_⟩
    refine hu.read_kept halters ?_ (hslot.read_new content)
    rw [Store.placeFrom_pathOf hresolved hslot.endsIn, ← hplace, hhere]
    rintro rfl
    rw [hslot.vacant] at hfile
    cases hfile

end BacksUp

/-- The content of a backup came to the file that the backup goes back to before a check with the
given reply was run, which was the only one. -/
def Returned (s : Site) (w : World) (name : String) (target : Path)
    (reply : Except Failure CommandResult) (v : World) (es : List Execution) : Prop :=
  s.restoreTarget name = .ok target ∧
    ∃ content x, w.read (s.store.pathOf name) = .ok content ∧
      es = [⟨x, s.controller.validateArgs (some s.config.text), reply⟩] ∧
      x.read target = .ok content ∧ v.read target = .ok content

/-- A restore was done in full. -/
structure RestoresFully (s : Site) (w : World) (name : String) (restored : Restored) (v : World)
    (es : List Execution) : Prop where
  artifact : restored.artifact = restored.path.name
  checked : ∃ result, s.Returned w name restored.path (.ok result) v es ∧
    restored.valid = result.exitOk ∧ restored.output = result.output
  backup : ∀ b, restored.backup = some b → w.tree.get? (s.store.folder ++ [b]) = none ∧
    ∃ prior, w.read restored.path = .ok prior ∧ v.read (s.store.pathOf b) = .ok prior
  unbacked : restored.backup = none ↔ ∃ f, w.look restored.path = .error f

/-- A restore that returns was done in full. If it fails, its file is as it was, unless it is the
check that fails. -/
theorem restores_fully_or_spares (hw : w.Regular) (hresolved : ".." ∉ s.store.folder)
    (hquiet : w.Quiet) (name : String) :
    (s.restoreBackup name).run.Does (fun _ => True) w fun r v es =>
      match r with
      | .ok restored => s.RestoresFully w name restored v es
      | .error failure =>
        es = [] ∧ (∀ target, s.restoreTarget name = .ok target → w.Spares v target) ∨
          ∃ target, s.Returned w name target (.error failure) v es := by
  refine (s.does_restoreBackup_ends hw hresolved hquiet name).mono (fun _ _ => trivial)
    fun r v es hends => ?_
  cases hends with
  | missed failure => exact .inl ⟨rfl, fun _ _ => .of_get rfl⟩
  | unbacked failure goes backs =>
    refine .inl ⟨rfl, fun target htarget => ?_⟩
    obtain rfl := Except.ok.inj (goes.symm.trans htarget)
    exact .of_get (backs.get?_eq hw)
  | unwritten message goes backs dug =>
    refine .inl ⟨rfl, fun target htarget => ?_⟩
    obtain rfl := Except.ok.inj (goes.symm.trans htarget)
    have halters := backs.alters_free hw hresolved
    exact (Spares.of_get (backs.get?_eq hw)).trans (dug.spares (backs.regular hw)) halters.below
      halters.here
  | @checked target content backup u y x goal mode args hargs found goes holds backs alone replaces
      hx =>
    have hu := backs.regular hw
    have hnew : x.read target = .ok content := hx ▸ replaces.read_new hu content
    have halike : x.Alike (x.hasRun args) := ⟨rfl, rfl⟩
    have hnew' : (x.hasRun args).read target = .ok content := (halike.read_eq target).trans hnew
    have halters : u.Alters (x.hasRun args) (· = target.placeFrom u.here) :=
      (hx ▸ replaces.alters hu content : u.Alters x _).trans (.of_alike halike)
    rcases hreply : x.replyTo args with failure | result
    · exact .inr ⟨target, goes, content, x, holds, hargs ▸ rfl, hnew, hnew'⟩
    · refine ⟨rfl, ⟨result, ⟨goes, content, x, holds, hargs ▸ rfl, hnew, hnew'⟩, rfl, rfl⟩,
        fun b hb => ?_, alone, fun ⟨f, hlook⟩ => ?_⟩
      · subst hb
        exact backs.read_kept hw hresolved halters
      · cases backup with
        | none => rfl
        | some b =>
          obtain ⟨-, prior, hread, -⟩ := backs.read_kept hw hresolved halters
          obtain ⟨hlands, mode, changed, hfile⟩ := hw.of_read hread
          cases hlook.symm.trans (hlands.look_file hfile)

/-- A site with its configuration in one folder and its backups in another. -/
def plain : Site :=
  { config := ⟨.one, ["d", "c"]⟩, servers := ⟨.one, ["e"]⟩, store := ⟨["b"]⟩, controller := {} }

/-- A backup of a configuration that is gone. All programs end with the given reply. -/
def onlyBackup (reply : Except Failure CommandResult) : World :=
  .atNoon ⟨[(["b"], .folder), (["b", "c.19990101_000000.backup"], .file [97] 0o640 (.known 0)),
      (["d"], .folder)]⟩ reply

private theorem restoreTarget_plain :
    plain.restoreTarget "c.19990101_000000.backup" = .ok ⟨.one, ["d", "c"]⟩ := rfl

theorem restores_fully_or_spares_plain :
    ∃ restored, ((plain.restoreBackup "c.19990101_000000.backup").run.run
        (onlyBackup (.ok .well))).1 = .ok restored ∧
      plain.RestoresFully (onlyBackup (.ok .well)) "c.19990101_000000.backup"
        restored
        ((plain.restoreBackup "c.19990101_000000.backup").run.run
          (onlyBackup (.ok .well))).2
        ((plain.restoreBackup "c.19990101_000000.backup").run.executions
          (onlyBackup (.ok .well))) := by
  have hregular : (onlyBackup (.ok .well)).Regular :=
    ⟨⟨Tree.sound_of_entries (by decide), rfl⟩, Tree.linkless_of_entries (by simp [onlyBackup])⟩
  have hrun : ((plain.restoreBackup "c.19990101_000000.backup").run.run
      (onlyBackup (.ok .well))).1
        = .ok ⟨"c", ⟨.one, ["d", "c"]⟩, none, true, ""⟩ := by
    rw [restoreBackup, restoreTarget_plain]
    cbv
  have hends := (restores_fully_or_spares (s := plain) hregular (by decide) (fun _ _ _ => rfl)
    "c.19990101_000000.backup").ends
  rw [hrun] at hends
  exact ⟨_, hrun, hends⟩

/-- The check cannot be run: the restore fails, but the file is not what it was. -/
theorem failed_restore_changes_file :
    ((plain.restoreBackup "c.19990101_000000.backup").run.run
        (onlyBackup (.error (.programRaised "boom")))).1 = .error (.programRaised "boom") ∧
      (onlyBackup (.error (.programRaised "boom"))).tree.get? ["d", "c"] = none ∧
      ((plain.restoreBackup "c.19990101_000000.backup").run.run
        (onlyBackup (.error (.programRaised "boom")))).2.tree.get? ["d", "c"]
          = some (.file [97] 0o644 .lately) := by
  have hrun : (plain.restoreBackup "c.19990101_000000.backup").run.run
      (onlyBackup (.error (.programRaised "boom")))
        = (.error (.programRaised "boom"), { onlyBackup (.error (.programRaised "boom")) with
          tree := (onlyBackup (.error (.programRaised "boom"))).tree.put ["d", "c"]
            (.file [97] 0o644 .lately)
          ran := [["nginx", "-t", "-c", "/d/c"]] }) := by
    rw [restoreBackup, restoreTarget_plain]
    cbv
  rw [hrun]
  exact ⟨rfl, by decide, by decide⟩

end Site
end ConfigSteward
