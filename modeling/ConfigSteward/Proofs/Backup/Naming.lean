import ConfigSteward.Proofs.Backup.Entries
import ConfigSteward.Proofs.Backup.Finding
import ConfigSteward.Proofs.Name.Distinct

/-!
# Names that are given and names that are taken

A store names a backup by its artifact, the second in which it was made and a counter. The name tells
all three, and the names of an artifact's backups are in the order of their times and counters. What
passes as a name is wider than what is given: digits of every script pass, and so does a line break at
the end. An artifact that ends in one can be backed up, but the name of its backup passes nowhere.
-/
namespace ConfigSteward

open Plan

namespace Store

variable {s : Store} {w v : World} {st : Step} {artifact name entry : String} {content bytes : Bytes}
  {b : Backup} {c : Civil} {k : Nat}

/-! ### What names tell -/

/-- A backup that is made gets the name of its artifact, its second and one of the counters. -/
theorem create_named (hmade : ((s.create artifact content).run.run w).1 = .ok b) :
    ∃ c k, b.created = some c ∧ k ≤ lastCounter ∧ b.name = Name.writeBackup artifact c k := by
  obtain ⟨name, place, hcreates⟩ := s.does_create w artifact content
  obtain ⟨-, ⟨refusal, hr, -⟩ | ⟨hslot, hr, -⟩⟩ := hcreates.ends
  · cases hr.symm.trans hmade
  · obtain rfl := Except.ok.inj (hr.symm.trans hmade)
    obtain ⟨k, hk, hname⟩ := hslot.named
    exact ⟨_, k, rfl, hk, hname⟩

/-- A backup gets a name that is taken apart into its artifact, its second and its counter. Two names
are the same only if all three are, and those of one artifact are in the order of time and counter. -/
theorem names_tell_and_ascend (hne : artifact ≠ "")
    (hchars : ∀ x ∈ artifact.toList, Name.isSafeChar x = true) (hc : c.Valid) (hyear : 1000 ≤ c.year)
    (hk : k ≤ lastCounter) :
    (∃ parts, Name.parse? (Name.writeBackup artifact c k) = some parts ∧
      String.ofList parts.artifact = artifact ∧ parts.stamp = Stamp.writeChars c ∧
      Stamp.readChars parts.stamp = .ok c ∧ parts.count = k) ∧
    Name.artifactOf (Name.writeBackup artifact c k) = .ok artifact ∧
    (∀ artifact' c' k', c'.Valid → 1000 ≤ c'.year → k' ≤ lastCounter →
      (Name.writeBackup artifact c k = Name.writeBackup artifact' c' k' ↔
        artifact = artifact' ∧ c = c' ∧ k = k') ∧
      (Name.writeBackup artifact c k < Name.writeBackup artifact c' k' ↔
        c.toSeconds < c'.toSeconds ∨ c = c' ∧ k < k')) ∧
    ∀ (s : Store) (w : World) (content : Bytes) (b : Backup),
      ((s.create artifact content).run.run w).1 = .ok b →
        ∃ c k, b.created = some c ∧ k ≤ lastCounter ∧ b.name = Name.writeBackup artifact c k := by
  have hline : '\n' ∉ artifact.toList := fun hmem => absurd (hchars _ hmem) (by decide)
  have hk' : k < 100 := Nat.lt_succ_of_le hk
  refine ⟨⟨Name.partsOf artifact c k, Name.parse?_writeBackup hne hline (hc.stampable hyear) hk',
    String.ofList_toList, rfl, Stamp.readChars_writeChars hc hyear, Name.count_partsOf hk'⟩,
    (Name.artifactOf_writeBackup_iff hc hk').mpr ⟨rfl, hne, hline, hyear⟩, ?_,
    fun _ _ _ _ => create_named⟩
  intro artifact' c' l hc' hyear' hl
  have hl' : l < 100 := Nat.lt_succ_of_le hl
  constructor
  · constructor
    · intro heq
      obtain ⟨rfl, hstamp, hcounter⟩ := Name.eq_of_writeBackup_eq heq
      exact ⟨rfl, Stamp.write_inj hc.dated hc'.dated hstamp, Name.writeCounter_inj hk' hl' hcounter⟩
    · rintro ⟨rfl, rfl, rfl⟩
      rfl
  · have hsame : c.number = c'.number ↔ c = c' :=
      ⟨hc.dated.eq_of_number hc'.dated, congrArg Civil.number⟩
    rw [Name.writeBackup_lt_iff artifact (hc.stampable hyear) (hc'.stampable hyear') hk' hl', hsame,
      hc.dated.toSeconds_lt_iff hc'.dated]

/-- The second backup of an artifact that is itself named like a backup comes after the first. -/
theorem names_tell_and_ascend_twofold :
    ("a.20240501_120000" ≠ "" ∧ (∀ x ∈ "a.20240501_120000".toList, Name.isSafeChar x = true) ∧
      Civil.Valid ⟨2024, 5, 1, 12, 0, 0⟩ ∧ 1 ≤ lastCounter) ∧
    Name.artifactOf "a.20240501_120000.20240501_120000_01.backup" = .ok "a.20240501_120000" ∧
    "a.20240501_120000.20240501_120000.backup" < "a.20240501_120000.20240501_120000_01.backup" := by
  have hchars : ∀ x ∈ "a.20240501_120000".toList, Name.isSafeChar x = true :=
    List.all_eq_true.mp (by decide)
  have hvalid : Civil.Valid ⟨2024, 5, 1, 12, 0, 0⟩ := by decide
  have hfirst := names_tell_and_ascend (by decide : "a.20240501_120000" ≠ "") hchars hvalid
    (by decide) (by decide : 0 ≤ lastCounter)
  have hsecond := names_tell_and_ascend (by decide : "a.20240501_120000" ≠ "") hchars hvalid
    (by decide) (by decide : 1 ≤ lastCounter)
  have hzero : Name.writeBackup "a.20240501_120000" ⟨2024, 5, 1, 12, 0, 0⟩ 0
      = "a.20240501_120000.20240501_120000.backup" := by decide
  have hone : Name.writeBackup "a.20240501_120000" ⟨2024, 5, 1, 12, 0, 0⟩ 1
      = "a.20240501_120000.20240501_120000_01.backup" := by decide
  have hascends := (hfirst.2.2.1 "" ⟨2024, 5, 1, 12, 0, 0⟩ 1 hvalid (by decide) (by decide)).2.mpr
    (.inr ⟨rfl, by decide⟩)
  rw [hone] at hsecond hascends
  rw [hzero] at hascends
  exact ⟨⟨by decide, hchars, hvalid, by decide⟩, hsecond.2.1, hascends⟩

/-! ### What names are taken -/

theorem Finds.of_alike (h : s.Finds w name entry bytes) (halike : w.Alike v) :
    s.Finds v name entry bytes :=
  ⟨h.safe, h.ends, by rw [halike.1, halike.2, h.resolves], by rw [halike.read_eq, h.read]⟩

/-- The name of a backup that was just made finds it, if it passes as safe. -/
theorem Founded.finds_created (h : s.Founded w) (hcall : st.call = .create artifact content)
    (hmade : s.calls.reply w st = .ok (.created b)) (hsafe : Name.isSafe b.name = true) :
    s.Finds (s.calls.advance w st) b.name b.name content := by
  obtain ⟨hslot, -, hadvance⟩ := h.created hcall hmade
  have hread := hslot.read_new content
  have hlands := (((st.meets w).noting_alike artifact).lands hslot.lands).at_put content
    World.plainMode .lately
  rw [hadvance]
  exact ⟨hsafe, hslot.endsIn, Tree.resolve_of_leads (Tree.walk_eq_ok_iff.mp hlands.followed).2, hread⟩

/-- The content can be got by the name, and the name can be deleted. -/
structure Serves (s : Store) (w : World) (name : String) (content : Bytes) : Prop where
  got : ∀ clock, s.calls.reply w ⟨clock, .get name⟩ = .ok (.content content)
  deleted : ∀ clock, s.calls.reply w ⟨clock, .delete name⟩ = .ok .deleted

/-- The name is refused as invalid wherever it is given. -/
structure Spurns (s : Store) (w : World) (name : String) : Prop where
  got : ∀ clock, s.calls.reply w ⟨clock, .get name⟩
    = .error (.refused (.invalidName ("Invalid backup name: " ++ name)))
  deleted : ∀ clock, s.calls.reply w ⟨clock, .delete name⟩
    = .error (.refused (.invalidName ("Invalid backup name: " ++ name)))
  told : Name.artifactOf name = .error (.invalidName ("Invalid backup name: " ++ name))

/-- What a name finds is served under it. -/
theorem Founded.serves (h : s.Founded w) (hfinds : s.Finds w name entry bytes) :
    s.Serves w name bytes := by
  constructor
  · intro clock
    have hfinds' : s.Finds { w with clock } name entry bytes := hfinds.of_alike ⟨rfl, rfl⟩
    have hdoes : (s.call (.get name)).run.Does (fun _ => True) { w with clock } fun r _ _ =>
        r = .ok (.content bytes) := by
      refine does_andThen.mpr ((s.does_get_found _ name).mono (fun _ _ => trivial) ?_)
      rintro r v es ⟨-, ⟨entry', bytes', hfound, rfl⟩ | ⟨hnot, -⟩⟩
      · rw [(hfound.unique hfinds').2]
        exact does_pure.mpr ⟨trivial, rfl⟩
      · exact absurd hfinds' (hnot _ _)
    exact hdoes.ends
  · intro clock
    have hfinds' : s.Finds { w with clock } name entry bytes := hfinds.of_alike ⟨rfl, rfl⟩
    have hfounded : s.Founded { w with clock } := h.of_alike ⟨rfl, rfl⟩
    have hdoes : (s.call (.delete name)).run.Does (fun _ => True) { w with clock } fun r _ _ =>
        r = .ok .deleted := by
      refine does_andThen.mpr ((hfounded.does_delete_found name).mono (fun _ _ => trivial) ?_)
      rintro r v es (⟨entry', bytes', -, rfl, -⟩ | ⟨hnot, -⟩)
      · exact does_pure.mpr ⟨trivial, rfl⟩
      · exact absurd hfinds' (hnot _ _)
    exact hdoes.ends

private theorem find_of_not_safe (hname : Name.isSafe name = false) :
    s.find name = Task.refuse (.invalidName ("Invalid backup name: " ++ name)) := by
  rw [find]
  simp only [hname, Bool.false_and, Bool.false_eq_true, if_false]

/-- A name that does not pass as safe and tells no artifact is spurned. -/
theorem spurns_of_not_safe (hname : Name.isSafe name = false)
    (htold : ∀ artifact, Name.artifactOf name ≠ .ok artifact) : s.Spurns w name := by
  refine ⟨fun clock => ?_, fun clock => ?_, ?_⟩
  · rw [reply_eq, call, get, find_of_not_safe hname]
    rfl
  · rw [reply_eq, call, delete, find_of_not_safe hname]
    rfl
  · rcases h : Name.artifactOf name with refusal | artifact
    · rw [Name.artifactOf_refuses h]
    · exact absurd h (htold artifact)

/-- What passes as a safe name and as the name of a backup, exactly. Names without line breaks and
digits of other scripts pass just if they are of the form that the store gives them. A backup that was
made can be got, deleted and put down to its artifact by its name, but that of an artifact that ends in
a line break is spurned, and in years of less than four digits a name tells no artifact. -/
theorem names_recognised_exactly (name artifact : String) :
    (Name.isSafe name = true ↔ Name.Safe name ∨ Name.Broken name) ∧
    (Name.artifactOf name = .ok artifact ↔ Name.BackupOf Text.isDigit artifact name ∨
      ∃ front, Name.BackupOf Text.isDigit artifact front ∧ name = front ++ "\n") ∧
    (∀ refusal, Name.artifactOf name = .error refusal →
      refusal = .invalidName ("Invalid backup name: " ++ name)) ∧
    (name.toList.getLast? ≠ some '\n' →
      (∀ x ∈ name.toList, Text.isDigit x = true → x.isDigit = true) →
      (Name.isSafe name = true ↔ Name.Safe name) ∧
      (Name.artifactOf name = .ok artifact ↔ Name.BackupOf Char.isDigit artifact name)) ∧
    ∀ (s : Store) (w : World) (st : Step) (content : Bytes) (b : Backup) (c : Civil),
      s.Founded w → st.call = .create artifact content →
      s.calls.reply w st = .ok (.created b) → b.created = some c → c.Valid →
      (Name.Safe artifact ∧ s.Serves (s.calls.advance w st) b.name content ∧
        (Name.artifactOf b.name = .ok artifact ↔ 1000 ≤ c.year)) ∨
      (Name.Broken artifact ∧ s.Spurns (s.calls.advance w st) b.name) := by
  refine ⟨Name.isSafe_iff, Name.artifactOf_eq_ok_iff, fun _ => Name.artifactOf_refuses,
    fun hend hdigits => ⟨?_, ?_⟩, ?_⟩
  · rw [Name.isSafe_iff, or_iff_left]
    exact fun hbroken => hend hbroken.getLast?_eq
  · rw [Name.artifactOf_eq_ok_iff, or_iff_left]
    · exact Name.backupOf_ascii_iff hdigits
    · rintro ⟨front, -, rfl⟩
      exact hend (by simp)
  · intro s w st content b c h hcall hmade hcreated hc
    obtain ⟨hslot, hb, -⟩ := h.created hcall hmade
    obtain ⟨k, hk, hname⟩ := hslot.named
    obtain rfl : (st.meets w).readingFor artifact = c := by
      rw [hb] at hcreated
      exact Option.some.inj hcreated
    have hk' : k < 100 := Nat.lt_succ_of_le hk
    have hpasses : Name.isSafe b.name = true ↔ ∀ x ∈ artifact.toList, Name.isSafeChar x = true :=
      hname ▸ Name.isSafe_writeBackup_iff hc.dated.placed hk'
    have htells {told : String} : Name.artifactOf b.name = .ok told ↔
        told = artifact ∧ artifact ≠ "" ∧ '\n' ∉ artifact.toList ∧
          1000 ≤ ((st.meets w).readingFor artifact).year :=
      hname ▸ Name.artifactOf_writeBackup_iff hc hk'
    rcases Name.isSafe_iff.mp hslot.safe with hsafe | hbroken
    · refine .inl ⟨hsafe, ?_, ?_⟩
      · exact (h.step_cases st).1.serves (h.finds_created hcall hmade (hpasses.mpr hsafe.chars))
      · exact htells.trans ⟨fun h => h.2.2.2, fun hyear => ⟨rfl, hsafe.nonempty, hsafe.line, hyear⟩⟩
    · refine .inr ⟨hbroken, spurns_of_not_safe (Bool.eq_false_iff.mpr fun h => ?_) fun told h => ?_⟩
      · exact absurd (hpasses.mp h _ hbroken.break_mem) (by decide)
      · exact (htells.mp h).2.2.1 hbroken.break_mem

/-- A backup made at noon is served under its name, which tells its artifact. -/
theorem names_recognised_exactly_noon : shelf.Founded (emptyAt shelf.folder) ∧
    shelf.calls.reply (emptyAt shelf.folder) noonBackup = .ok (.created
      ⟨"a.20240501_120000.backup", "a", some ⟨2024, 5, 1, 12, 0, 0⟩, 1⟩) ∧
    Civil.Valid ⟨2024, 5, 1, 12, 0, 0⟩ ∧
    shelf.Serves (shelf.calls.advance (emptyAt shelf.folder) noonBackup) "a.20240501_120000.backup" [97] ∧
    Name.artifactOf "a.20240501_120000.backup" = .ok "a" ∧
    Name.BackupOf Char.isDigit "a" "a.20240501_120000.backup" := by
  have hfounded : shelf.Founded (emptyAt shelf.folder) := founded_emptyAt (by decide)
  have hmade : shelf.calls.reply (emptyAt shelf.folder) noonBackup = .ok (.created
      ⟨"a.20240501_120000.backup", "a", some ⟨2024, 5, 1, 12, 0, 0⟩, 1⟩) := by cbv
  have hvalid : Civil.Valid ⟨2024, 5, 1, 12, 0, 0⟩ := by decide
  have hdigits : ∀ x ∈ "a.20240501_120000.backup".toList,
      Text.isDigit x = true → x.isDigit = true := by
    have hall : "a.20240501_120000.backup".toList.all
        (fun x => !Text.isDigit x || x.isDigit) = true := by decide
    intro x hx hdigit
    simpa [hdigit] using List.all_eq_true.mp hall x hx
  obtain ⟨-, -, -, hplain, hserved⟩ := names_recognised_exactly "a.20240501_120000.backup" "a"
  refine ⟨hfounded, hmade, hvalid, ?_⟩
  rcases hserved shelf _ noonBackup [97] _ _ hfounded rfl hmade rfl hvalid with
    ⟨-, hserves, htold⟩ | ⟨hbroken, -⟩
  · have hartifact := htold.mpr (by decide)
    exact ⟨hserves, hartifact, (hplain (by decide) hdigits).2.mp hartifact⟩
  · exact absurd hbroken.break_mem (by decide)

/-- A backup of an artifact that ends in a line break, made at noon. -/
def brokenBackup : Step := ⟨World.noon, .create "a\n" [97]⟩

/-- A line break at the end passes in the name of an artifact and in that of a backup, and so do digits
of another script. The backup of such an artifact is made and can neither be got nor deleted, and its
name tells no artifact. -/
theorem breaks_and_foreign_digits_pass :
    (Name.isSafe "a\n" = true ∧ ¬ Name.Safe "a\n") ∧
    (Name.artifactOf "a.20240501_120000.backup\n" = .ok "a" ∧
      ¬ Name.BackupOf Char.isDigit "a" "a.20240501_120000.backup\n") ∧
    (Name.artifactOf "a.\u0662\u0660\u0662\u06640501_120000.backup" = .ok "a" ∧
      ¬ Name.BackupOf Char.isDigit "a" "a.\u0662\u0660\u0662\u06640501_120000.backup") ∧
    ∃ b, shelf.calls.reply (emptyAt shelf.folder) brokenBackup = .ok (.created b) ∧
      shelf.Spurns (shelf.calls.advance (emptyAt shelf.folder) brokenBackup) b.name := by
  have hplain : Name.parse? "a.20240501_120000.backup\n"
      = some ⟨['a'], "20240501_120000".toList, none⟩ := by decide
  have hforeign : Name.parse? "a.\u0662\u0660\u0662\u06640501_120000.backup"
      = some ⟨['a'], "\u0662\u0660\u0662\u06640501_120000".toList, none⟩ := by decide
  have hnone : Name.parse? "a\n.20240501_120000.backup" = none := by decide
  refine ⟨⟨by decide, fun h => h.line (by decide)⟩, ⟨by rw [Name.artifactOf, hplain], ?_⟩,
    ⟨by rw [Name.artifactOf, hforeign], ?_⟩,
    ⟨"a\n.20240501_120000.backup", "a\n", some ⟨2024, 5, 1, 12, 0, 0⟩, 1⟩, by cbv, ?_⟩
  · rintro ⟨parts, -, -, hname⟩
    exact parts.getLast?_text (by rw [← hname]; decide)
  · rintro ⟨parts, hparts, -, hname⟩
    have htext := (Name.dropFinalBreak_eq_iff parts.getLast?_text).mpr (.inl hname)
    have hparse := Name.parse?_eq_some_iff.mpr
      ⟨hparts.mono fun x hx => Stamp.isDigit_of_place hx, htext⟩
    obtain rfl := Option.some.inj (hforeign.symm.trans hparse)
    obtain ⟨date, time, hstamp, hdate, -⟩ := hparts.stamp
    have htake : (date ++ '_' :: time).take 8 = date := List.take_left' hdate.length
    rw [← hstamp] at htake
    have hmem : '\u0662' ∈ date := htake ▸ by decide
    exact hdate.notMem (by decide) hmem
  · refine spurns_of_not_safe (by decide) fun told h => ?_
    rw [Name.artifactOf, hnone] at h
    cases h

end Store
end ConfigSteward
