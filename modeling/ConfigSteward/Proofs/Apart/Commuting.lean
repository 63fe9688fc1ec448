import Mathlib
import ConfigSteward.Proofs.Apart.Places
import ConfigSteward.Proofs.Servers.Runs

/-!
# Calls on different server files commute

A call on server files changes nothing but the files that it concerns and their backups. Two calls
that concern different files are answered in either order as if the other had not been made, and
lead to one tree, unless the folder of backups is missing and would have to come up at or below one
of the files.
-/
namespace ConfigSteward

open Plan

theorem Programs.Settled.harmless {programs : Programs} (h : programs.Settled) :
    programs.Harmless := by
  obtain ⟨f, hf⟩ := h
  exact ⟨fun ran args tree => by rw [hf], fun ran args tree refusal => by simp [hf]⟩

namespace Site

variable {s : Site} {w u v : World} {c c' : Call} {q : Place} {first second : Step}
  {files : String → Prop}

/-- The call leaves all places alone but those of the files that it concerns, so that no other file
and no backup of another file is changed. -/
structure Call.LeavesRest (s : Site) (c : Call) (w v : World) : Prop where
  rest : ∀ q, (∀ file, c.Concerns s file → ¬ s.Belongs w.here file q) →
    v.tree.get? q = w.tree.get? q
  others : ∀ file, Name.IsServerName file → ¬ c.Concerns s file → ∀ q, s.Belongs w.here file q →
    v.tree.get? q = w.tree.get? q

theorem Call.LeavesRest.of_rest
    (h : ∀ q, (∀ file, c.Concerns s file → ¬ s.Belongs w.here file q) →
      v.tree.get? q = w.tree.get? q) : c.LeavesRest s w v := by
  refine ⟨h, fun file hfile hnot q hq => h q fun file' hconcerns hq' => hnot ?_⟩
  rwa [hq.unique hfile hconcerns.isServerName hq']

theorem Grounded.becomes (hs : s.Grounded w) (h : w.Becomes u) : s.Grounded u :=
  ⟨h.settled, h.stands hs.servers, hs.resolved, h.here ▸ hs.here⟩

/-- A temporary file is out of reach in the end. -/
theorem Fleeting.not_reach {here : Place} (h : s.Fleeting here q) (hc : c.OnServerFiles s) :
    ¬ c.Reach s here q := by
  rintro (⟨hrewrites, -⟩ | ⟨file, hsafe, hserver, -, rfl⟩ | ⟨name, hends, rfl⟩)
  · cases c with
    | restoreBackup => exact hc hrewrites
    | saveConfig => exact hc
    | _ => exact hrewrites
  · exact h.not_belongs (Name.isServerName_of_safe hsafe hserver) .server
  · exact h.not_telling (.inr hends)

section
variable (hs : s.Grounded w) (hc : c.OnServerFiles s)
include hs hc

/-- What a call on server files leaves: nothing but its own has changed. -/
theorem keeps_call :
    w.Becomes ((s.call c).run.run w).2 ∧
      (s.scope w (c.Concerns s) fun _ => False).Keeps w ((s.call c).run.run w).2 := by
  have hparted : s.Parted w (c.Concerns s) fun _ => False :=
    ⟨fun _ hfile => hfile.isServerName, fun _ hfile => hfile.elim, fun _ _ hfile => hfile,
      .inr fun _ hfile => hfile.elim⟩
  have hfollows := within_call hs hc hparted w w (Scope.agrees_refl hs.settled.becomes)
  exact ⟨hfollows.agrees.left, hfollows.keeps⟩

theorem leavesRest_call : c.LeavesRest s w ((s.call c).run.run w).2 := by
  obtain ⟨hbecomes, hkeeps⟩ := keeps_call hs hc
  have hconfines := (does_call_confines hs.settled.regular hs.resolved
    hs.settled.programs.harmless c).ends
  refine .of_rest fun q hq => ?_
  by_cases hfleeting : s.Fleeting w.here q
  · exact (hconfines.alters.edits hbecomes.skeleton).entry q (hfleeting.not_reach hc)
  · refine hkeeps.entry q ?_
    rintro (⟨file, hfile, hbelongs⟩ | hfleeting')
    · exact hq file hfile hbelongs
    · exact hfleeting hfleeting'

/-- Whatever calls were made before, a place that the call does not change stays as it was. -/
theorem entry_call (hu : w.Becomes u) (hq : ¬ s.Changing w (c.Concerns s) q) :
    ((s.call c).run.run u).2.tree.get? q = u.tree.get? q := by
  have hsu := hs.becomes hu
  by_cases hfolder : w.tree.get? q = some .folder
  · have hfolder' : u.tree.get? q = some .folder := by
      rw [← Tree.skeleton_eq_folder_iff, hu.skeleton, Tree.skeleton_eq_folder_iff, hfolder]
    rw [hfolder', ← Tree.skeleton_eq_folder_iff, (keeps_call hsu hc).1.skeleton,
      Tree.skeleton_eq_folder_iff, hfolder']
  · refine (leavesRest_call hsu hc).rest q fun file hfile hbelongs => hq ⟨⟨file, hfile, ?_⟩, hfolder⟩
    rwa [← hu.here]

/-- After a call that concerns other files a call goes as it would have gone before. -/
theorem follows_call (hc' : c'.OnServerFiles s) (h : s.Parted w (c'.Concerns s) (c.Concerns s)) :
    (s.scope w (c'.Concerns s) (c.Concerns s)).Follows w ((s.call c').run.run w)
      ((s.call c').run.run ((s.call c).run.run w).2) := by
  obtain ⟨hbecomes, hkeeps⟩ := keeps_call hs hc
  refine within_call hs hc' h _ _ ⟨hs.settled.becomes, hbecomes, fun q hq => ?_, fun file hfile => ?_⟩
  · exact entry_call hs hc hs.settled.becomes hq
  · exact hkeeps.last file (h.apart file hfile)

/-- Two calls that concern different files lead to one tree in either order. -/
theorem tree_commutes (hc' : c'.OnServerFiles s) (h : s.Parted w (c.Concerns s) (c'.Concerns s))
    (h' : s.Parted w (c'.Concerns s) (c.Concerns s)) (q : Place) :
    ((s.call c').run.run ((s.call c).run.run w).2).2.tree.get? q
      = ((s.call c).run.run ((s.call c').run.run w).2).2.tree.get? q := by
  by_cases hq : s.Changing w (c.Concerns s) q
  · -- The place is the first call's, so the second one neither changes nor sees it.
    have hq' : ¬ s.Changing w (c'.Concerns s) q := by
      obtain ⟨⟨file, hfile, hbelongs⟩, -⟩ := hq
      exact not_others h hfile hbelongs
    rw [entry_call hs hc' (keeps_call hs hc).1 hq']
    exact ((follows_call hs hc' hc h).agrees.entry q hq').symm
  · rw [entry_call hs hc (keeps_call hs hc').1 hq]
    exact (follows_call hs hc hc' h').agrees.entry q hq

end

theorem Step.meets_becomes {st st' : Step} (hclock : st'.clock = st.clock)
    (hprograms : st'.programs = st.programs) (h : (st.meets w).Becomes u) : st'.meets u = u := by
  have hu : u.clock = st'.clock := h.clock.trans hclock.symm
  have hu' : u.programs = st'.programs := h.programs.trans hprograms.symm
  rw [Step.meets, ← hu, ← hu']

theorem leavesRest_advance {st : Step} (hs : s.Grounded (st.meets w)) (hc : st.call.OnServerFiles s) :
    st.call.LeavesRest s w (s.calls.advance w st) := .of_rest (leavesRest_call hs hc).rest

/-- Two calls on different server files, under one clock and with settled programs: in either order
each is answered as if the other had not been made, they lead to one tree, and neither changes
anything but its own files and their backups. The folder of backups is there, or it is not to be
made at or below one of the files. -/
theorem calls_commute (hclock : second.clock = first.clock)
    (hprograms : second.programs = first.programs) (hs : s.Grounded (first.meets w))
    (hfirst : first.call.OnServerFiles s) (hsecond : second.call.OnServerFiles s)
    (hapart : ∀ file, first.call.Concerns s file → ¬ second.call.Concerns s file)
    (hstore : w.tree.get? s.store.folder = some .folder ∨
      ∀ file, first.call.Concerns s file ∨ second.call.Concerns s file →
        ¬ s.servers.placeFrom w.here ++ [file] <+: s.store.folder) :
    s.calls.reply (s.calls.advance w first) second = s.calls.reply w second ∧
      s.calls.reply (s.calls.advance w second) first = s.calls.reply w first ∧
      (∀ q, (s.calls.after w [first, second]).tree.get? q = (s.calls.after w [second, first]).tree.get? q) ∧
      (first.call.LeavesRest s w (s.calls.advance w first) ∧
        second.call.LeavesRest s (s.calls.advance w first) (s.calls.after w [first, second])) ∧
      second.call.LeavesRest s w (s.calls.advance w second) ∧
        first.call.LeavesRest s (s.calls.advance w second) (s.calls.after w [second, first]) := by
  have hmeets : second.meets w = first.meets w := by rw [Step.meets, Step.meets, hclock, hprograms]
  have hparted : s.Parted (first.meets w) (first.call.Concerns s) (second.call.Concerns s) :=
    ⟨fun _ h => h.isServerName, fun _ h => h.isServerName, hapart,
      hstore.imp_right fun h file hfile => h file (.inr hfile)⟩
  have hparted' : s.Parted (first.meets w) (second.call.Concerns s) (first.call.Concerns s) :=
    ⟨fun _ h => h.isServerName, fun _ h => h.isServerName, fun file h h' => hapart file h' h,
      hstore.imp_right fun h file hfile => h file (.inl hfile)⟩
  -- Both steps find the world that the first one finds, and the later step what the earlier left.
  have hw : s.calls.advance w first = ((s.call first.call).run.run (first.meets w)).2 := rfl
  have hw' : s.calls.advance w second = ((s.call second.call).run.run (first.meets w)).2 := by
    rw [advance_eq, hmeets]
  have hbecomes := (keeps_call hs hfirst).1
  have hbecomes' := (keeps_call hs hsecond).1
  rw [← hw] at hbecomes
  rw [← hw'] at hbecomes'
  have hlater : second.meets (s.calls.advance w first) = s.calls.advance w first :=
    Step.meets_becomes hclock hprograms hbecomes
  have hlater' : first.meets (s.calls.advance w second) = s.calls.advance w second :=
    Step.meets_becomes rfl rfl hbecomes'
  have hstands : s.Grounded (second.meets (s.calls.advance w first)) := by
    rw [hlater]
    exact hs.becomes hbecomes
  have hstands' : s.Grounded (first.meets (s.calls.advance w second)) := by
    rw [hlater']
    exact hs.becomes hbecomes'
  simp only [Calls.after_cons, Calls.after_nil]
  refine ⟨?_, ?_, fun q => ?_, ⟨leavesRest_advance hs hfirst, leavesRest_advance hstands hsecond⟩,
    leavesRest_advance (hmeets ▸ hs) hsecond, leavesRest_advance hstands' hfirst⟩
  · rw [reply_eq, reply_eq, hlater, hmeets]
    exact (follows_call hs hfirst hsecond hparted').same
  · rw [reply_eq, reply_eq, hlater', hw']
    exact (follows_call hs hsecond hfirst hparted).same
  · rw [advance_eq, hlater, hw, advance_eq, hlater', hw']
    exact tree_commutes hs hfirst hsecond hparted hparted' q

/-- A folder of servers with one file, beside a folder of backups. -/
def twofold : World :=
  .atNoon ⟨[(["s"], .folder), (["s", "a.conf"], .file [97] 0o644 (.known 0)), (["b"], .folder)]⟩

/-- A call at noon with programs that all end well. -/
def fairly (c : Call) : Step := ⟨World.noon, .replying (.ok .well), c⟩

private theorem settled_fairly {w : World} (hregular : w.Regular) (hnoted : w.noted = []) (c : Call) :
    ((fairly c).meets w).Settled := by
  have hnow : 1000 ≤ (Civil.ofSeconds (World.noon / 1000000)).year ∧
      (Civil.ofSeconds (World.noon / 1000000)).year ≤ 9999 := by decide
  refine ⟨hregular.of_alike (Step.meets_alike _ w), ?_, hnow, _, fun _ _ _ => rfl⟩
  intro e he
  rw [show ((fairly c).meets w).noted = w.noted from rfl, hnoted] at he
  cases he

/-- One server file is saved and another one is made, in either order. -/
theorem calls_commute_twofold :
    let saved := fairly (.saveServer (some "a") "x")
    let made := fairly (.createServer (some "c") none)
    roadside.Grounded (saved.meets twofold) ∧ saved.call.OnServerFiles roadside ∧
      made.call.OnServerFiles roadside ∧
      (∀ file, saved.call.Concerns roadside file → ¬ made.call.Concerns roadside file) ∧
      twofold.tree.get? roadside.store.folder = some .folder ∧
      ∀ q, (roadside.calls.after twofold [saved, made]).tree.get? q
        = (roadside.calls.after twofold [made, saved]).tree.get? q := by
  intro saved made
  have hregular : twofold.Regular :=
    ⟨⟨Tree.sound_of_entries (by decide), rfl⟩, Tree.linkless_of_entries (by simp [twofold])⟩
  have hstands : roadside.Grounded (saved.meets twofold) :=
    ⟨settled_fairly hregular rfl _, ⟨["s"], by cbv, rfl⟩, by decide, by decide⟩
  have hmeans : roadside.Means (some "a") "a.conf" := ⟨rfl, by decide⟩
  have hmeans' : roadside.Means (some "c") "c.conf" := ⟨rfl, by decide⟩
  have hapart : ∀ file, saved.call.Concerns roadside file → ¬ made.call.Concerns roadside file := by
    intro file h h'
    rw [← hmeans.unique h] at h'
    exact absurd (hmeans'.unique h') (by decide)
  refine ⟨hstands, trivial, trivial, hapart, rfl, ?_⟩
  have hclock : made.clock = saved.clock := rfl
  exact (calls_commute hclock rfl hstands trivial trivial hapart (.inl rfl)).2.2.1

/-- A site whose backups have their folder below the servers, under the name of a server file. -/
def nested : Site := ⟨⟨.one, ["n"]⟩, ⟨.one, ["s"]⟩, ⟨["s", "x.conf"]⟩, {}⟩

/-- How a save is answered whose backup fails. -/
def unsaved (cause : Cause) : Outcome :=
  { artifact := "y.conf"
    error := some .backupFailed
    message := some ("Error writing backup y.conf.20240501_120000.backup: "
      ++ Fault.message ⟨cause, "/s/x.conf/y.conf.20240501_120000.backup", none⟩) }

/-- Where the folder of backups is missing, a server file may come up in its place. How a save is
answered whose backup cannot be made tells whether it has. -/
theorem calls_differ_nested :
    let made := fairly (.createServer (some "x") (some "a"))
    let saved := fairly (.saveServer (some "y") "z")
    nested.Grounded (made.meets (Store.emptyAt ["s"])) ∧ made.call.OnServerFiles nested ∧
      saved.call.OnServerFiles nested ∧
      (∀ file, made.call.Concerns nested file → ¬ saved.call.Concerns nested file) ∧
      nested.calls.reply (nested.calls.advance (Store.emptyAt ["s"]) made) saved
        ≠ nested.calls.reply (Store.emptyAt ["s"]) saved := by
  intro made saved
  have hregular : (Store.emptyAt ["s"]).Regular :=
    ⟨⟨Tree.spine_sound ["s"], rfl⟩,
      Tree.linkless_of_entries (by simp [Store.emptyAt, Tree.spine])⟩
  have hstands : nested.Grounded (made.meets (Store.emptyAt ["s"])) :=
    ⟨settled_fairly hregular rfl _, ⟨["s"], by cbv, rfl⟩, by decide, by decide⟩
  have hmeans : nested.Means (some "x") "x.conf" := ⟨rfl, by decide⟩
  have hmeans' : nested.Means (some "y") "y.conf" := ⟨rfl, by decide⟩
  refine ⟨hstands, trivial, trivial, fun file h h' => ?_, ?_⟩
  · rw [← hmeans.unique h] at h'
    exact absurd (hmeans'.unique h') (by decide)
  · have hlater : nested.calls.reply (nested.calls.advance (Store.emptyAt ["s"]) made) saved
        = .ok (.outcome (unsaved .notDirectory)) := by cbv
    have hfirst : nested.calls.reply (Store.emptyAt ["s"]) saved
        = .ok (.outcome (unsaved .noEntry)) := by cbv
    rw [hlater, hfirst]
    intro heq
    have hmessage : (unsaved .notDirectory).message = (unsaved .noEntry).message :=
      congrArg Outcome.message (Answer.outcome.inj (Except.ok.inj heq))
    exact absurd hmessage (by decide)

end Site
end ConfigSteward
