import ConfigSteward.Proofs.Backup.Tally

/-!
# When a store refuses to make one more backup

Within one second a store makes a hundred backups of an artifact and refuses any further one. The
second is the latest that the clock has shown at a call to back the artifact up, so a clock that is
set back stays in it. As soon as the clock shows a later one, there is room again.
-/
namespace ConfigSteward

open Plan

namespace Store

variable {s : Store} {w v : World} {artifact name other : String} {content : Bytes} {st : Step}
  {steps : List Step} {reading : Civil} {seconds : List Nat} {bs : List Backup}

/-! ### Room for a name -/

/-- The path of a name leads to the entry of that name in the folder. -/
def Reaches (s : Store) (w : World) (name : String) : Prop :=
  w.tree.walk false w.here (s.pathOf name) = .ok (s.folder ++ [name])

theorem Reaches.vacancy_eq (h : s.Reaches w name) (hfree : ¬ s.Taken w name) :
    w.vacancy (s.pathOf name) = .ok (s.folder ++ [name]) := by
  have hnone : w.tree.get? (s.folder ++ [name]) = none := not_not.mp hfree
  simp only [World.vacancy, show w.tree.walk false w.here (s.pathOf name) = _ from h, hnone]
  rfl

theorem Reaches.not_taken {place : Place} (h : s.Reaches w name)
    (hvacant : w.vacancy (s.pathOf name) = .ok place) : ¬ s.Taken w name := by
  obtain ⟨hlands, hnone⟩ := World.vacancy_eq_ok_iff.mp hvacant
  obtain rfl := Except.ok.inj (Eq.trans (Eq.symm h) hlands.walk)
  exact fun htaken => htaken hnone

/-- Only an entry that is there keeps the name from being given. -/
theorem Reaches.cause_eq {f : Fault} (h : s.Reaches w name)
    (hfault : w.vacancy (s.pathOf name) = .error f) : f.cause = .alreadyThere := by
  by_cases htaken : s.Taken w name
  · rw [World.vacancy_of_taken h htaken] at hfault
    cases hfault
    rfl
  · rw [h.vacancy_eq htaken] at hfault
    cases hfault

theorem Founded.reaches_of_leads (h : s.Founded w)
    (hleads : w.tree.Leads true linkBudget [] s.folder s.folder) (hplain : Tree.Plain name)
    (hroom : (s.pathOf name).text.utf8ByteSize ≤ longestPath) : s.Reaches w name :=
  Tree.walk_eq_ok_iff.mpr ⟨hroom, hleads.snoc h.there hplain⟩

private theorem text_pathOf_le (hle : other.utf8ByteSize ≤ name.utf8ByteSize) :
    (s.pathOf other).text.utf8ByteSize ≤ (s.pathOf name).text.utf8ByteSize := by
  have hsize (name : String) : (s.pathOf name).text.utf8ByteSize = (s.folder ++ [name]).foldr
      (fun name size => name.utf8ByteSize + 1 + size) 0 := Place.text_path_size (by simp)
  rw [hsize, hsize, List.foldr_append, List.foldr_append]
  generalize s.folder = folder
  induction folder with
  | nil => simpa using hle
  | cons first folder ih => simpa using ih

/-- Where a name has found room, no longer name lacks it afterwards. -/
theorem Founded.reaches_of_occupied (h : s.Founded w) (h' : s.Founded v)
    (hoccupied : s.Occupied w name) (hname : name ≠ "..") (hother : other ≠ "..")
    (hle : other.utf8ByteSize ≤ name.utf8ByteSize) : s.Reaches v other := by
  obtain ⟨place, hwalk, -⟩ := hoccupied
  obtain ⟨hlen, hleads⟩ := Tree.walk_eq_ok_iff.mp hwalk
  obtain ⟨folder, hfolder, hthere, hend⟩ :=
    hleads.unsnoc h.sound.tree (Tree.get?_start h.sound.here (s.pathOf name))
  have hagain := hfolder.of_folder h.sound.tree h'.sound.tree h.straight h.there h'.there
  rcases hend with ⟨hup, -⟩ | ⟨hplain, -⟩
  · exact absurd hup hname
  · exact h'.reaches_of_leads hagain ⟨hother, Nat.le_trans hle hplain.2⟩
      (Nat.le_trans (text_pathOf_le hle) hlen)

/-! ### Refusals -/

/-- Where all names of a second are taken, a hundred backups were made in it. -/
theorem Tallied.full (h : s.Tallied artifact w seconds bs) {second : Nat}
    (hfull : ∀ k ≤ lastCounter, s.Taken w (Name.writeBackup artifact (Civil.ofSeconds second) k)) :
    lastCounter < (bs.filter (·.created = some (Civil.ofSeconds second))).length := by
  let names := (List.range (lastCounter + 1)).map
    (Name.writeBackup artifact (Civil.ofSeconds second))
  have hnodup : names.Nodup := by
    refine List.Nodup.map_on (fun k hk j hj heq => ?_) List.nodup_range
    rw [List.mem_range, lastCounter] at hk hj
    exact Name.writeCounter_inj hk hj (Name.eq_of_writeBackup_eq heq).2.2
  have hsubset : names ⊆ (bs.filter (·.created = some (Civil.ofSeconds second))).map (·.name) := by
    intro name hname
    obtain ⟨k, hk, rfl⟩ := List.mem_map.mp hname
    obtain ⟨b, hb, hnamed⟩ := h.entered _ k (hfull k (Nat.le_of_lt_succ (List.mem_range.mp hk)))
    obtain ⟨n, -, hcreated, j, hwritten⟩ := h.dated b hb
    have hstamp := (Name.eq_of_writeBackup_eq (hwritten.symm.trans hnamed)).2.1
    have hsecond := Stamp.write_inj (Civil.ofSeconds_dated n) (Civil.ofSeconds_dated second) hstamp
    exact List.mem_map.mpr ⟨b, List.mem_filter.mpr ⟨hb, by simpa [hcreated] using hsecond⟩, hnamed⟩
  have hlength := hnodup.length_le_of_subset hsubset
  simpa [names] using hlength

/-- No name of a second that was not asked for is taken. -/
theorem Tallied.free (h : s.Tallied artifact w seconds bs) {second : Nat} (hsecond : second ∉ seconds)
    (k : Nat) : ¬ s.Taken w (Name.writeBackup artifact (Civil.ofSeconds second) k) := by
  intro htaken
  obtain ⟨b, hb, hnamed⟩ := h.entered _ k htaken
  obtain ⟨n, hn, -, j, hwritten⟩ := h.dated b hb
  have hstamp := (Name.eq_of_writeBackup_eq (hwritten.symm.trans hnamed)).2.1
  have heq := Stamp.write_inj (Civil.ofSeconds_dated n) (Civil.ofSeconds_dated second) hstamp
  exact hsecond (Civil.ofSeconds_inj heq ▸ hn)

/-- What a step that asks for a backup of a safe artifact comes to. -/
theorem reply_create_tries (hsafe : Name.isSafe artifact = true)
    (hcall : st.call = .create artifact content) (s : Store) (w : World) :
    ∃ r, s.calls.reply w st = r.map .created ∧ s.Tries ((st.meets w).noting artifact) artifact content
      ((st.meets w).readingFor artifact) 0 (lastCounter + 1) r (s.calls.advance w st) := by
  have hdoes : (s.call st.call).run.Does (fun _ => True) (st.meets w) fun r v _ =>
      ∃ made, r = made.map .created ∧ s.Tries ((st.meets w).noting artifact) artifact content
        ((st.meets w).readingFor artifact) 0 (lastCounter + 1) made v := by
    rw [hcall]
    refine does_andThen.mpr ((does_create_tries s _ hsafe content).mono (fun _ _ => trivial) ?_)
    rintro (failure | made) v es htries
    · exact ⟨trivial, .error failure, rfl, htries⟩
    · exact does_pure.mpr ⟨trivial, .ok made, rfl, htries⟩
  exact hdoes.ends

/-- Where the first name of a second is free and has room, a backup is made. -/
theorem Tries.made_of_free {tries : Nat} {r : Except Failure Backup} (hw : s.Founded w)
    (h : s.Tries w artifact content reading 0 (tries + 1) r v)
    (hreaches : s.Reaches w (Name.writeBackup artifact reading 0))
    (hfree : ¬ s.Taken w (Name.writeBackup artifact reading 0)) : ∃ b, r = .ok b := by
  cases h with
  | full occupied => exact absurd (hw.taken (occupied 0 (Nat.le_refl 0) (by omega))) hfree
  | made => exact ⟨_, rfl⟩
  | @unwritten k f bound occupied fault other =>
    rcases Nat.eq_zero_or_pos k with rfl | hk
    · exact absurd (hreaches.cause_eq fault) other
    · exact absurd (hw.taken (occupied 0 (Nat.le_refl 0) hk)) hfree

/-- What is refused as too many has found all names occupied. -/
theorem Tries.occupied {counter tries : Nat} {reading' : Civil} {artifact' : String}
    (h : s.Tries w artifact content reading counter tries
      (.error (.refused (tooMany artifact' reading'))) v) :
    s.OccupiedTo w artifact reading counter (counter + tries) := by
  generalize hrefusal : tooMany artifact' reading' = refusal at h
  cases h with
  | full occupied => exact occupied
  | unwritten => exact absurd hrefusal.symm (unwritten_ne_tooMany _ _ _ _)

/-- The first name of a second takes no more room than the last name of any other. -/
theorem utf8ByteSize_first_le {second later : Nat}
    (hyear : (Civil.ofSeconds later).year ≤ 9999) :
    (Name.writeBackup artifact (Civil.ofSeconds later) 0).utf8ByteSize
      ≤ (Name.writeBackup artifact (Civil.ofSeconds second) lastCounter).utf8ByteSize := by
  have hdigits : (Nat.toDigits 10 (Civil.ofSeconds later).year).length ≤ 4 :=
    (Nat.length_toDigits_le_iff (by decide) (by decide)).mpr (by omega)
  have hdigits' : 0 < (Nat.toDigits 10 (Civil.ofSeconds second).year).length :=
    Nat.length_toDigits_pos
  have hcounter : (Name.writeCounter lastCounter).length = 3 := by decide
  have hcounter' : (Name.writeCounter 0).length = 0 := by decide
  rw [Name.utf8ByteSize_writeBackup artifact (Civil.ofSeconds_dated later) (by decide),
    Name.utf8ByteSize_writeBackup artifact (Civil.ofSeconds_dated second) (by decide)]
  omega

/-- A store that was opened in an empty folder refuses to make one more backup only if a hundred
backups of the artifact were made in the latest second that the clock has shown at any call to back
it up; and as soon as the clock shows a later second than all of these, it makes one again. -/
theorem refused_only_when_full (h : s.Founded w) (hempty : ∀ name, ¬ s.Taken w name)
    (hnoted : w.noted = []) (hsafe : Name.isSafe artifact = true)
    (hcall : st.call = .create artifact content)
    (hrefused : s.calls.reply (s.calls.after w steps) st = .error (.refused (tooMany artifact reading))) :
    (∃ second, IsGreatest {n | n ∈ asked artifact (steps ++ [st])} second ∧
      lastCounter < ((s.made artifact w steps).filter
        (·.created = some (Civil.ofSeconds second))).length) ∧
    ∀ more again content', again.call = .create artifact content' →
      (∀ n ∈ asked artifact (steps ++ st :: more), n < again.clock / 1000000) →
      (Civil.ofSeconds (again.clock / 1000000)).year ≤ 9999 →
      ∃ b, s.calls.reply (s.calls.after w (steps ++ st :: more)) again = .ok (.created b) := by
  have htally := h.tallied hempty hnoted hsafe steps
  obtain ⟨second, hsecond, hreading⟩ := htally.readingFor st.clock
  have hoccupied : s.OccupiedTo ((st.meets (s.calls.after w steps)).noting artifact) artifact
      (Civil.ofSeconds second) 0 (lastCounter + 1) := by
    obtain ⟨r, hreply, htries⟩ := reply_create_tries hsafe hcall s (s.calls.after w steps)
    rw [show (st.meets (s.calls.after w steps)).readingFor artifact = Civil.ofSeconds second from hreading]
      at htries
    rw [hrefused] at hreply
    rcases r with failure | made
    · obtain rfl := Except.error.inj hreply
      exact htries.occupied
    · cases hreply
  have hfounded : s.Founded ((st.meets (s.calls.after w steps)).noting artifact) :=
    htally.founded.of_alike ⟨rfl, rfl⟩
  refine ⟨⟨second, ?_, htally.full fun k hk => ?_⟩, ?_⟩
  · have hasked : asked artifact (steps ++ [st]) = asked artifact steps ++ [st.clock / 1000000] := by
      rw [asked, List.filterMap_append]
      simp [asked, Step.asks_of_create hcall]
    rw [hasked]
    exact hsecond
  · exact hfounded.taken (hoccupied k (Nat.zero_le k) (Nat.lt_succ_of_le hk))
  · intro more again content' hagain hlater hyear
    have htally' := h.tallied hempty hnoted hsafe (steps ++ st :: more)
    let u := (again.meets (s.calls.after w (steps ++ st :: more))).noting artifact
    have hu : s.Founded u := htally'.founded.of_alike ⟨rfl, rfl⟩
    obtain ⟨n, hn, hreading'⟩ := htally'.readingFor again.clock
    have hnow : n = again.clock / 1000000 := by
      rcases List.mem_append.mp hn.1 with hmem | hmem
      · exact absurd (hn.2 (List.mem_append_right _ (List.mem_singleton_self _)))
          (Nat.not_le.mpr (hlater n hmem))
      · exact List.mem_singleton.mp hmem
    subst hnow
    have hreaches : s.Reaches u (Name.writeBackup artifact
        (Civil.ofSeconds (again.clock / 1000000)) 0) :=
      hfounded.reaches_of_occupied hu
        (hoccupied lastCounter (Nat.zero_le _) (Nat.lt_succ_self _))
        (ne_up_of_endsIn (Name.endsIn_writeBackup _ _ _))
        (ne_up_of_endsIn (Name.endsIn_writeBackup _ _ _)) (utf8ByteSize_first_le hyear)
    have hfree := htally'.free (fun hmem => Nat.lt_irrefl _ (hlater _ hmem)) 0
    obtain ⟨r, hreply, htries⟩ := reply_create_tries hsafe hagain s (s.calls.after w (steps ++ st :: more))
    rw [show (again.meets (s.calls.after w (steps ++ st :: more))).readingFor artifact
      = Civil.ofSeconds (again.clock / 1000000) from hreading'] at htries
    obtain ⟨b, rfl⟩ := htries.made_of_free hu hreaches hfree
    exact ⟨b, hreply⟩

/-! ### The backups of one second -/

/-- Of the names of a second those with the first counters are taken, and the reading noted last is
that of the second. -/
structure Counts (s : Store) (artifact : String) (second n : Nat) (w : World) : Prop where
  founded : s.Founded w
  last : n = 0 ∧ w.last artifact = none ∨ w.last artifact = some (Civil.ofSeconds second)
  reaches : ∀ k ≤ lastCounter, s.Reaches w (Name.writeBackup artifact (Civil.ofSeconds second) k)
  taken : ∀ k ≤ lastCounter,
    s.Taken w (Name.writeBackup artifact (Civil.ofSeconds second) k) ↔ k < n

variable {second n : Nat}

namespace Counts

theorem of_alike (h : s.Counts artifact second n w) (halike : w.Alike v)
    (hlast : v.last artifact = some (Civil.ofSeconds second)) : s.Counts artifact second n v := by
  refine ⟨h.founded.of_alike halike, .inr hlast, fun k hk => ?_, fun k hk => ?_⟩
  · rw [Reaches, halike.1, halike.2]
    exact h.reaches k hk
  · rw [Taken, halike.1]
    exact h.taken k hk

/-- A clock that shows the second, or shows none later once a reading was noted, stays in it. -/
theorem readingFor (h : s.Counts artifact second n w)
    (hclock : st.clock / 1000000 = second ∨ 0 < n ∧ st.clock / 1000000 ≤ second) :
    (st.meets w).readingFor artifact = Civil.ofSeconds second := by
  rcases h.last with ⟨rfl, hlast⟩ | hlast
  · have hsame : st.clock / 1000000 = second := by omega
    rw [World.readingFor, show ((st.meets w).noted.find? (·.1 = artifact)).map (·.2) = none from hlast,
      ← hsame]
    rfl
  · have hle : st.clock / 1000000 ≤ second := by omega
    have hlatest := Civil.latest_ofSeconds (st.clock / 1000000) second
    rw [Nat.max_eq_right hle] at hlatest
    rw [World.readingFor_of_last (w := st.meets w) hlast]
    exact hlatest

/-- The search for a name ends at the first counter that is not taken, if there is one. -/
theorem tries {r : Except Failure Backup} (h : s.Counts artifact second n w) (hn : n ≤ lastCounter + 1)
    (htries : s.Tries w artifact content (Civil.ofSeconds second) 0 (lastCounter + 1) r v) :
    n ≤ lastCounter ∧ v = w.withFile
        (s.folder ++ [Name.writeBackup artifact (Civil.ofSeconds second) n]) content ∨
      n = lastCounter + 1 ∧ r = .error (.refused (tooMany artifact (Civil.ofSeconds second))) ∧
        v = w := by
  have hbelow {k : Nat} (hk : k ≤ lastCounter + 1)
      (hoccupied : s.OccupiedTo w artifact (Civil.ofSeconds second) 0 k) : k ≤ n := by
    by_contra hlt
    have hthere := h.founded.taken (hoccupied n (Nat.zero_le n) (by omega))
    exact Nat.lt_irrefl n ((h.taken n (by omega)).mp hthere)
  cases htries with
  | full occupied => exact .inr ⟨Nat.le_antisymm hn (hbelow (by omega) (by simpa using occupied)), rfl, rfl⟩
  | @made k place bound occupied vacant =>
    have hfree := (h.reaches k (by omega)).not_taken vacant
    have hk : k = n := Nat.le_antisymm (hbelow (by omega) occupied)
      (Nat.not_lt.mp fun hlt => hfree ((h.taken k (by omega)).mpr hlt))
    subst hk
    rw [(h.reaches k (by omega)).vacancy_eq hfree] at vacant
    obtain rfl := Except.ok.inj vacant
    exact .inl ⟨by omega, rfl⟩
  | @unwritten k f bound occupied fault other =>
    exact absurd ((h.reaches k (by omega)).cause_eq fault) other

/-- As long as a counter is left, a call to back the artifact up takes the next one. -/
theorem next (h : s.Counts artifact second n w) (hsafe : Name.isSafe artifact = true)
    (hn : n ≤ lastCounter) (hcall : st.call = .create artifact content)
    (hclock : st.clock / 1000000 = second ∨ 0 < n ∧ st.clock / 1000000 ≤ second) :
    s.Counts artifact second (n + 1) (s.calls.advance w st) := by
  obtain ⟨r, -, htries⟩ := reply_create_tries hsafe hcall s w
  have hlast : ((st.meets w).noting artifact).last artifact = some (Civil.ofSeconds second) := by
    rw [World.last_noting, if_pos rfl, h.readingFor hclock]
  rw [h.readingFor hclock] at htries
  have hcounts := h.of_alike (v := (st.meets w).noting artifact) ⟨rfl, rfl⟩ hlast
  rcases hcounts.tries (by omega) htries with ⟨-, hv⟩ | ⟨hfull, -⟩
  · have hreaches := hcounts.reaches n hn
    have hfree : ¬ s.Taken ((st.meets w).noting artifact)
        (Name.writeBackup artifact (Civil.ofSeconds second) n) :=
      fun htaken => Nat.lt_irrefl n ((hcounts.taken n hn).mp htaken)
    obtain ⟨hlands, hnone⟩ := World.vacancy_eq_ok_iff.mp (hreaches.vacancy_eq hfree)
    have hset : ((st.meets w).noting artifact).tree.Sets
        (s.folder ++ [Name.writeBackup artifact (Civil.ofSeconds second) n])
        (some (.file content World.plainMode .lately)) (s.calls.advance w st).tree := by
      rw [hv]
      exact Tree.put_sets hlands.ne_nil _
    have hhere : (s.calls.advance w st).here = ((st.meets w).noting artifact).here := by
      rw [hv]
      rfl
    have hfounded := hcounts.founded.of_sets hset hhere hlands.ne_folder
    have hleaf := Tree.skeleton_of_file hset.self
    refine ⟨hfounded, .inr ?_, fun k hk => ?_, fun k hk => ?_⟩
    · rw [hv]
      exact hlast
    · rw [Reaches, hhere]
      exact Tree.walk_mono (.of_eq (hset.skeleton_eq hlands.leaf hleaf)) (hcounts.reaches k hk)
    · by_cases hkn : k = n
      · subst hkn
        simp [Taken, hset.self]
      · have hother : s.folder ++ [Name.writeBackup artifact (Civil.ofSeconds second) k]
            ≠ s.folder ++ [Name.writeBackup artifact (Civil.ofSeconds second) n] := by
          intro heq
          have hname := List.singleton_inj.mp (List.append_cancel_left heq)
          exact hkn (Name.writeCounter_inj (Nat.lt_succ_of_le hk) (Nat.lt_succ_of_le hn)
            (Name.eq_of_writeBackup_eq hname).2.2)
        rw [Taken, hset.other hother]
        exact (hcounts.taken k hk).trans (by omega)
  · omega

/-- When no counter is left, every call to back the artifact up is refused until the clock shows a
later second. -/
theorem refuses (h : s.Counts artifact second (lastCounter + 1) w) (hsafe : Name.isSafe artifact = true)
    (hcall : st.call = .create artifact content) (hclock : st.clock / 1000000 ≤ second) :
    s.calls.reply w st = .error (.refused (tooMany artifact (Civil.ofSeconds second))) ∧
      s.Counts artifact second (lastCounter + 1) (s.calls.advance w st) := by
  obtain ⟨r, hreply, htries⟩ := reply_create_tries hsafe hcall s w
  have hreading : (st.meets w).readingFor artifact = Civil.ofSeconds second :=
    h.readingFor (.inr ⟨Nat.succ_pos _, hclock⟩)
  have hlast : ((st.meets w).noting artifact).last artifact = some (Civil.ofSeconds second) := by
    rw [World.last_noting, if_pos rfl, hreading]
  rw [hreading] at htries
  have hcounts := h.of_alike (v := (st.meets w).noting artifact) ⟨rfl, rfl⟩ hlast
  rcases hcounts.tries (Nat.le_refl _) htries with ⟨hle, -⟩ | ⟨-, rfl, hv⟩
  · omega
  · exact ⟨hreply, hv ▸ hcounts⟩

/-- Calls within the second take one counter each. -/
theorem after_replicate (h : s.Counts artifact second n w) (hsafe : Name.isSafe artifact = true)
    (hcall : st.call = .create artifact content) (hclock : st.clock / 1000000 = second) {m : Nat}
    (hm : n + m ≤ lastCounter + 1) :
    s.Counts artifact second (n + m) (s.calls.after w (List.replicate m st)) := by
  induction m generalizing n w with
  | zero => exact h
  | succ m ih =>
    have hrest := ih (h.next hsafe (by omega) hcall (.inl hclock)) (by omega)
    rw [show n + 1 + m = n + (m + 1) by omega] at hrest
    exact hrest

end Counts

/-! ### A clock that is set back -/

/-- The clock was set back by an hour. -/
def hourEarlier : Step := ⟨World.noon - 3600000000, .create "a" [98]⟩

/-- One second after that. -/
def retried : Step := ⟨World.noon - 3599000000, .create "a" [98]⟩

private theorem ofSeconds_noon : Civil.ofSeconds (World.noon / 1000000) = ⟨2024, 5, 1, 12, 0, 0⟩ := by decide

private theorem counts_shelf : shelf.Counts "a" (World.noon / 1000000) 0 (emptyAt shelf.folder) := by
  have hfounded : shelf.Founded (emptyAt shelf.folder) := founded_emptyAt (by decide)
  have hleads : (emptyAt shelf.folder).tree.Leads true linkBudget [] shelf.folder shelf.folder :=
    .into ⟨by decide, by decide⟩ (by decide) .stop
  refine ⟨hfounded, .inl ⟨rfl, rfl⟩, fun k hk => ?_, fun k _ => ?_⟩
  · have hsize := Name.utf8ByteSize_writeBackup "a" (Civil.ofSeconds_dated (World.noon / 1000000))
      (Nat.lt_succ_of_le hk)
    have hartifact : ("a" : String).utf8ByteSize = 1 := by decide
    have hyear : (Nat.toDigits 10 (Civil.ofSeconds (World.noon / 1000000)).year).length = 4 := by
      rw [ofSeconds_noon]
      decide
    have hcounter := Name.length_writeCounter_le k
    have hroom : (shelf.pathOf
        (Name.writeBackup "a" (Civil.ofSeconds (World.noon / 1000000)) k)).text.utf8ByteSize
        = 2 + ((Name.writeBackup "a" (Civil.ofSeconds (World.noon / 1000000)) k).utf8ByteSize + 1) :=
      Place.text_path_size (p := [_, _]) (by simp)
    refine hfounded.reaches_of_leads hleads
      ⟨ne_up_of_endsIn (Name.endsIn_writeBackup _ _ _), ?_⟩ ?_
    · rw [longestName]
      omega
    · rw [hroom, longestPath]
      omega
  · exact iff_of_false (fun htaken => htaken (Tree.spine_empty _ _)) (Nat.not_lt_zero k)

private theorem counts_shelf_full : shelf.Counts "a" (World.noon / 1000000) (lastCounter + 1)
    (shelf.calls.after (emptyAt shelf.folder) (List.replicate 100 noonBackup)) := by
  have hcall : noonBackup.call = .create "a" [97] := rfl
  have hcounts := counts_shelf.after_replicate (m := 100) (by decide) hcall rfl (by decide)
  rwa [Nat.zero_add] at hcounts

/-- After a hundred backups at noon and with the clock set back by an hour, the store refuses backups
in seconds in which it has made none. -/
theorem refused_in_empty_second : shelf.Founded (emptyAt shelf.folder) ∧
    (∀ name, ¬ shelf.Taken (emptyAt shelf.folder) name) ∧ (emptyAt shelf.folder).noted = [] ∧
    (∀ b ∈ shelf.made "a" (emptyAt shelf.folder) (List.replicate 100 noonBackup),
      b.created = some ⟨2024, 5, 1, 12, 0, 0⟩) ∧
    shelf.calls.reply (shelf.calls.after (emptyAt shelf.folder) (List.replicate 100 noonBackup)) hourEarlier
      = .error (.refused (tooMany "a" ⟨2024, 5, 1, 12, 0, 0⟩)) ∧
    shelf.calls.reply
      (shelf.calls.after (emptyAt shelf.folder) (List.replicate 100 noonBackup ++ [hourEarlier])) retried = .error (.refused (tooMany "a" ⟨2024, 5, 1, 12, 0, 0⟩)) := by
  have hfounded : shelf.Founded (emptyAt shelf.folder) := founded_emptyAt (by decide)
  have hempty : ∀ name, ¬ shelf.Taken (emptyAt shelf.folder) name :=
    fun name htaken => htaken (Tree.spine_empty _ _)
  have hcall : hourEarlier.call = .create "a" [98] := rfl
  have hcall' : retried.call = .create "a" [98] := rfl
  obtain ⟨hrefused, hcounts⟩ := counts_shelf_full.refuses (by decide) hcall (by decide)
  obtain ⟨hrefused', -⟩ := hcounts.refuses (by decide) hcall' (by decide)
  rw [← Calls.after_concat, ofSeconds_noon] at hrefused'
  rw [ofSeconds_noon] at hrefused
  refine ⟨hfounded, hempty, rfl, fun b hb => ?_, hrefused, hrefused'⟩
  obtain ⟨n, hn, hcreated, -⟩ :=
    (hfounded.tallied hempty rfl (by decide) (List.replicate 100 noonBackup)).dated b hb
  obtain ⟨st, hst, hasks⟩ := List.mem_filterMap.mp hn
  obtain rfl := List.eq_of_mem_replicate hst
  obtain rfl := Option.some.inj hasks
  rw [hcreated]
  exact congrArg some ofSeconds_noon

/-- A second after noon there is room for a backup again. -/
theorem refused_only_when_full_at_noon : shelf.Founded (emptyAt shelf.folder) ∧
    (∀ name, ¬ shelf.Taken (emptyAt shelf.folder) name) ∧ (emptyAt shelf.folder).noted = [] ∧
    Name.isSafe "a" = true ∧ hourEarlier.call = .create "a" [98] ∧
    shelf.calls.reply (shelf.calls.after (emptyAt shelf.folder) (List.replicate 100 noonBackup)) hourEarlier
      = .error (.refused (tooMany "a" (Civil.ofSeconds (World.noon / 1000000)))) ∧
    ∃ b, shelf.calls.reply
      (shelf.calls.after (emptyAt shelf.folder) (List.replicate 100 noonBackup ++ hourEarlier :: []))
      ⟨World.noon + 1000000, .create "a" [98]⟩ = .ok (.created b) := by
  have hfounded : shelf.Founded (emptyAt shelf.folder) := founded_emptyAt (by decide)
  have hempty : ∀ name, ¬ shelf.Taken (emptyAt shelf.folder) name :=
    fun name htaken => htaken (Tree.spine_empty _ _)
  have hcall : hourEarlier.call = .create "a" [98] := rfl
  have hrefused := (counts_shelf_full.refuses (by decide) hcall (by decide)).1
  refine ⟨hfounded, hempty, rfl, by decide, hcall, hrefused, ?_⟩
  refine (refused_only_when_full hfounded hempty rfl (by decide) hcall hrefused).2 [] _ _ rfl
    (fun n hn => ?_) (by decide)
  obtain ⟨st, hst, hasks⟩ := List.mem_filterMap.mp hn
  rcases List.mem_append.mp hst with hst | hst
  · obtain rfl := List.eq_of_mem_replicate hst
    obtain rfl := Option.some.inj hasks
    decide
  · obtain rfl := List.mem_singleton.mp hst
    obtain rfl := Option.some.inj hasks
    decide

end Store
end ConfigSteward
