import Mathlib
import ConfigSteward.Proofs.Backup.Entries
import ConfigSteward.Proofs.Name.Order

/-!
# The order in which backups are made

As long as none of its backups is taken away, the names of the backups that a store makes for one
artifact grow, whatever the clock does and whatever else is in the folder. The reading that was
noted last is the greatest, and within its second no counter is free below one that was given.
-/
namespace ConfigSteward

open Plan

/-! ### The reading noted last -/

namespace World

variable {w v : World} {artifact : String}

/-- The reading noted last for an artifact. -/
def last (w : World) (artifact : String) : Option Civil :=
  (w.noted.find? (·.1 = artifact)).map (·.2)

theorem readingFor_of_last {c : Civil} (h : w.last artifact = some c) :
    w.readingFor artifact = Civil.latest (Civil.ofSeconds (w.clock / 1000000)) c := by
  rw [readingFor, show (w.noted.find? (·.1 = artifact)).map (·.2) = some c from h]

@[simp] theorem last_noting (w : World) (artifact other : String) :
    (w.noting artifact).last other
      = if other = artifact then some (w.readingFor artifact) else w.last other := by
  by_cases h : other = artifact
  · simp [last, noting, h]
  · have hother : ¬ artifact = other := fun heq => h heq.symm
    have hsame : (fun e : String × Civil => decide (decide (e.1 ≠ artifact) = true ∧
        decide (e.1 = other) = true)) = fun e => decide (e.1 = other) := by
      funext e
      by_cases he : e.1 = other
      · simp [he, h]
      · simp [he]
    simp only [last, noting, List.find?_cons, hother, h, decide_false, if_false, List.find?_filter,
      hsame]

/-- Readings that were noted are never taken back. -/
def Later (w v : World) : Prop :=
  ∀ artifact c, w.last artifact = some c → ∃ c', v.last artifact = some c' ∧ c.number ≤ c'.number

theorem Later.refl (w : World) : w.Later w := fun _ c hc => ⟨c, hc, Nat.le_refl _⟩

theorem Later.of_noted (h : v.noted = w.noted) : w.Later v := by
  intro artifact c hc
  exact ⟨c, by rw [last, h]; exact hc, Nat.le_refl _⟩

private theorem later_noting (w : World) (artifact : String) : w.Later (w.noting artifact) := by
  intro other c hc
  rw [last_noting]
  split
  · next heq =>
    subst heq
    refine ⟨_, rfl, ?_⟩
    rw [readingFor_of_last hc, Civil.number_latest]
    exact Nat.le_max_right _ _
  · exact ⟨c, hc, Nat.le_refl _⟩

/-- The readings noted are seconds of years of four digits. -/
def NotedInYears (w : World) : Prop := ∀ e ∈ w.noted, e.2.Valid ∧ 1000 ≤ e.2.year

theorem NotedInYears.readingFor (h : w.NotedInYears)
    (hnow : 1000 ≤ (Civil.ofSeconds (w.clock / 1000000)).year ∧
      (Civil.ofSeconds (w.clock / 1000000)).year ≤ 9999) (artifact : String) :
    (w.readingFor artifact).Valid ∧ 1000 ≤ (w.readingFor artifact).year := by
  have hclock := Civil.ofSeconds_valid hnow.2
  rcases hlast : w.last artifact with _ | c
  · rw [World.readingFor, show (w.noted.find? (·.1 = artifact)).map (·.2) = none from hlast]
    exact ⟨hclock, hnow.1⟩
  · obtain ⟨e, he, rfl⟩ := Option.map_eq_some_iff.mp hlast
    rw [readingFor_of_last hlast]
    unfold Civil.latest
    split
    · exact h e (List.mem_of_find?_eq_some he)
    · exact ⟨hclock, hnow.1⟩

theorem NotedInYears.noting (h : w.NotedInYears)
    (hreading : (w.readingFor artifact).Valid ∧ 1000 ≤ (w.readingFor artifact).year) :
    (w.noting artifact).NotedInYears := by
  intro e he
  rcases List.mem_cons.mp he with rfl | he
  · exact hreading
  · exact h e (List.mem_filter.mp he).1

end World

/-- One backup comes before another by its name, and its time is no later. -/
def Backup.Before (a b : Backup) : Prop :=
  a.name < b.name ∧ ∃ c c', a.created = some c ∧ b.created = some c' ∧ c.number ≤ c'.number

namespace Store

variable {s : Store} {w v : World} {artifact name : String} {content : Bytes} {b : Backup}
  {bs : List Backup} {st : Step} {steps : List Step}

/-! ### The first free counter -/

/-- A name that is occupied has an entry in the folder. -/
theorem Founded.taken (h : s.Founded w) {reading : Civil} {k : Nat}
    (hoccupied : s.Occupied w (Name.writeBackup artifact reading k)) :
    s.Taken w (Name.writeBackup artifact reading k) := by
  obtain ⟨place, hwalk, hthere⟩ := hoccupied
  rcases h.walk_cases hwalk with rfl | ⟨hup, -⟩
  · exact hthere
  · exact absurd hup (ne_up_of_endsIn (Name.endsIn_writeBackup _ _ _))

/-- The names below a counter that a backup is made under are taken. -/
theorem Founded.does_create_first (h : s.Founded w) (artifact : String) (content : Bytes) :
    (s.create artifact content).run.Does (fun _ => True) w fun r _ _ => ∀ b, r = .ok b →
      ∃ k, k ≤ lastCounter ∧ b.name = Name.writeBackup artifact (w.readingFor artifact) k ∧
        ∀ j, j < k → s.Taken w (Name.writeBackup artifact (w.readingFor artifact) j) := by
  by_cases hsafe : Name.isSafe artifact = true
  · refine (does_create_tries s w hsafe content).mono (fun _ hv => hv) ?_
    rintro r v es htries b rfl
    cases htries with
    | @made k place bound occupied vacant =>
      have hnoting := h.of_alike (w.noting_alike artifact)
      exact ⟨k, by omega, rfl, fun j hj => hnoting.taken (occupied j (Nat.zero_le j) hj)⟩
  · rw [create, if_neg hsafe]
    exact Task.does_refuse.mpr ⟨trivial, by simp⟩

/-! ### What a run has made -/

/-- A backup was made under a counter at a reading. -/
structure Written (artifact : String) (b : Backup) (reading : Civil) (counter : Nat) : Prop where
  named : b.name = Name.writeBackup artifact reading counter
  owner : b.artifact = artifact
  created : b.created = some reading
  valid : reading.Valid ∧ 1000 ≤ reading.year
  counted : counter ≤ lastCounter

/-- The next backup of the artifact will come after a backup: the reading noted last is later, or
it is the same and no name is free up to the one of the backup. -/
def Passed (s : Store) (w : World) (artifact : String) (b : Backup) : Prop :=
  ∃ reading counter last, Written artifact b reading counter ∧ w.last artifact = some last ∧
    reading.number ≤ last.number ∧ (reading.number = last.number →
      ∀ k ≤ counter, s.Taken w (Name.writeBackup artifact reading k))

/-- The backups that were made for an artifact so far are described and in order, and the next one
will come after them. -/
structure Ordered (s : Store) (artifact : String) (w : World) (bs : List Backup) : Prop where
  founded : s.Founded w
  distinct : w.tree.Distinct
  noted : w.NotedInYears
  shelved : ∀ b ∈ bs, s.Shelved w b
  passed : ∀ b ∈ bs, s.Passed w artifact b
  ascends : bs.Pairwise Backup.Before

/-- The backups of an artifact that are in the folder stay in it. -/
def Leaves (s : Store) (artifact : String) (w v : World) : Prop :=
  ∀ name, Name.artifactOf name = .ok artifact → s.Taken w name → s.Taken v name

/-- The entries of an artifact's backups stay as they are. -/
def Holds (s : Store) (artifact : String) (w v : World) : Prop :=
  ∀ name, Name.artifactOf name = .ok artifact → s.Taken w name →
    v.tree.get? (s.folder ++ [name]) = w.tree.get? (s.folder ++ [name])

theorem Written.artifactOf {reading : Civil} {counter : Nat} (h : Written artifact b reading counter)
    (hsafe : Name.Safe artifact) {k : Nat} (hk : k ≤ counter) :
    Name.artifactOf (Name.writeBackup artifact reading k) = .ok artifact :=
  Name.artifactOf_writeBackup hsafe (h.valid.1.stampable h.valid.2)
    (Nat.lt_succ_of_le (Nat.le_trans hk h.counted))

theorem Holds.shelved (h : s.Holds artifact w v) (hw : s.Founded w) (hv : s.Founded v)
    (howner : Name.artifactOf b.name = .ok artifact) (hb : s.Shelved w b) : s.Shelved v b := by
  obtain ⟨bytes, mode, changed, hfile, hsize⟩ := hb.file
  have hsame := h b.name howner (by rw [Taken, hfile]; simp)
  rw [hfile] at hsame
  exact ⟨hw.lands_of hv hb.lands (Tree.skeleton_of_file hsame),
    ⟨bytes, mode, changed, hsame, hsize⟩, hb.ends, hb.told⟩

theorem Holds.passed (h : s.Holds artifact w v) (hlater : w.Later v) (hsafe : Name.Safe artifact)
    (hb : s.Passed w artifact b) : s.Passed v artifact b := by
  obtain ⟨reading, counter, last, hwritten, hlast, hle, htaken⟩ := hb
  obtain ⟨last', hlast', hle'⟩ := hlater artifact last hlast
  refine ⟨reading, counter, last', hwritten, hlast', Nat.le_trans hle hle', fun heq k hk => ?_⟩
  have hthere := htaken (by omega) k hk
  rw [Taken, h _ (hwritten.artifactOf hsafe hk) hthere]
  exact hthere

/-- What was made stays in order while the entries of its backups stay. -/
theorem Ordered.kept (h : s.Ordered artifact w bs) (hsafe : Name.Safe artifact)
    (hfounded : s.Founded v) (hdistinct : v.tree.Distinct) (hnoted : v.NotedInYears)
    (hholds : s.Holds artifact w v) (hlater : w.Later v) : s.Ordered artifact v bs := by
  refine ⟨hfounded, hdistinct, hnoted, fun b hb => ?_, fun b hb => ?_, h.ascends⟩
  · obtain ⟨reading, counter, last, hwritten, -⟩ := h.passed b hb
    refine hholds.shelved h.founded hfounded ?_ (h.shelved b hb)
    rw [hwritten.named]
    exact hwritten.artifactOf hsafe (Nat.le_refl _)
  · exact hholds.passed hlater hsafe (h.passed b hb)

theorem Ordered.of_alike (h : s.Ordered artifact w bs) (hsafe : Name.Safe artifact)
    (halike : w.Alike v) (hnoted : v.NotedInYears) (hlater : w.Later v) : s.Ordered artifact v bs :=
  h.kept hsafe (h.founded.of_alike halike) (halike.1 ▸ h.distinct) hnoted
    (fun _ _ _ => by rw [halike.1]) hlater

/-- A backup that the last reading has passed comes before the next one. -/
theorem Passed.before (h : s.Passed w artifact b) {next : Backup} {k : Nat}
    (hnext : Written artifact next (w.readingFor artifact) k)
    (hfree : ¬ s.Taken w (Name.writeBackup artifact (w.readingFor artifact) k)) :
    b.Before next := by
  obtain ⟨reading, counter, last, hwritten, hlast, hle, htaken⟩ := h
  have hstamp := hwritten.valid.1.stampable hwritten.valid.2
  have hstamp' := hnext.valid.1.stampable hnext.valid.2
  have hle' : last.number ≤ (w.readingFor artifact).number := by
    rw [World.readingFor_of_last hlast, Civil.number_latest]
    exact Nat.le_max_right _ _
  refine ⟨?_, reading, _, hwritten.created, hnext.created, Nat.le_trans hle hle'⟩
  rw [hwritten.named, hnext.named, Name.writeBackup_lt_iff artifact hstamp hstamp'
    (Nat.lt_succ_of_le hwritten.counted) (Nat.lt_succ_of_le hnext.counted)]
  by_cases hlt : reading.number < (w.readingFor artifact).number
  · exact .inl hlt
  · -- Within the second of the last reading the counters up to `counter` are taken.
    have heq : reading.number = (w.readingFor artifact).number := by omega
    refine .inr ⟨heq, Nat.lt_of_not_le fun hk => hfree ?_⟩
    rw [← hstamp.eq_of_number hstamp' heq]
    exact htaken (by omega) k hk

/-! ### Steps -/

section
variable (h : s.Ordered artifact w bs) (hsafe : Name.Safe artifact)
include h hsafe

/-- An entry that comes up where none was leaves what was made in order. -/
theorem Ordered.withFile {a : String} {place : Place} (hslot : s.Slot w a name place)
    (hreading : (w.readingFor a).Valid ∧ 1000 ≤ (w.readingFor a).year) (content : Bytes) :
    s.Ordered artifact ((w.noting a).withFile place content) bs := by
  obtain ⟨-, rfl⟩ := h.founded.split hslot.lands
  have hset := Tree.put_sets (t := w.tree) hslot.lands.ne_nil (.file content World.plainMode .lately)
  refine h.kept hsafe (h.founded.of_sets hset rfl hslot.lands.ne_folder) (h.distinct.put _ _)
    (h.noted.noting hreading) (fun other _ hother => ?_) (w.later_noting a)
  refine hset.other fun heq => hother ?_
  rw [heq, hslot.vacant]

/-- A new backup of the artifact goes on where the others end. -/
theorem Ordered.snoc {place : Place} {k : Nat} (hslot : s.Slot w artifact name place)
    (hreading : (w.readingFor artifact).Valid ∧ 1000 ≤ (w.readingFor artifact).year)
    (hk : k ≤ lastCounter) (hname : name = Name.writeBackup artifact (w.readingFor artifact) k)
    (hbelow : ∀ j < k, s.Taken w (Name.writeBackup artifact (w.readingFor artifact) j)) :
    s.Ordered artifact ((w.noting artifact).withFile place content)
      (bs ++ [⟨name, artifact, some (w.readingFor artifact), content.length⟩]) := by
  have hrest := h.withFile hsafe hslot hreading content
  have hplace := (h.founded.split hslot.lands).2
  subst hplace
  have hset : w.tree.Sets (s.folder ++ [name]) (some (.file content World.plainMode .lately))
      ((w.noting artifact).withFile (s.folder ++ [name]) content).tree :=
    Tree.put_sets hslot.lands.ne_nil _
  have hwritten : Written artifact ⟨name, artifact, some (w.readingFor artifact), content.length⟩
      (w.readingFor artifact) k := ⟨hname, rfl, rfl, hreading, hk⟩
  refine ⟨hrest.founded, hrest.distinct, hrest.noted, ?_, ?_, ?_⟩
  · intro b hb
    rcases List.mem_append.mp hb with hb | hb
    · exact hrest.shelved b hb
    · obtain rfl := List.mem_singleton.mp hb
      have htold : Snapshot.ofFile? name content
          = some ⟨artifact, w.readingFor artifact, content⟩ := by
        rw [hname]
        exact ofFile?_writeBackup hsafe hreading.1 hreading.2 (Nat.lt_succ_of_le hk) content
      exact ⟨((w.noting_alike artifact).lands hslot.lands).at_put content _ _,
        ⟨content, _, _, hset.self, rfl⟩, hslot.endsIn, fun changed => ownerAndTime_eq htold changed⟩
  · intro b hb
    rcases List.mem_append.mp hb with hb | hb
    · exact hrest.passed b hb
    · obtain rfl := List.mem_singleton.mp hb
      have hlast : ((w.noting artifact).withFile (s.folder ++ [name]) content).last artifact
          = some (w.readingFor artifact) := by
        rw [show ((w.noting artifact).withFile (s.folder ++ [name]) content).last artifact
          = (w.noting artifact).last artifact from rfl, World.last_noting, if_pos rfl]
      refine ⟨_, k, _, hwritten, hlast, Nat.le_refl _, fun _ j hj => ?_⟩
      rcases Nat.eq_or_lt_of_le hj with rfl | hlt
      · rw [Taken, ← hname]
        exact hset.self ▸ Option.some_ne_none _
      · have hother : s.folder ++ [Name.writeBackup artifact (w.readingFor artifact) j]
            ≠ s.folder ++ [name] := fun heq => hbelow j hlt (heq ▸ hslot.vacant)
        rw [Taken, hset.other hother]
        exact hbelow j hlt
  · refine List.pairwise_append.mpr ⟨h.ascends, List.pairwise_singleton _ _, ?_⟩
    intro b hb next hnext
    obtain rfl := List.mem_singleton.mp hnext
    refine (h.passed b hb).before hwritten fun htaken => htaken ?_
    rw [← hname, hslot.vacant]

end

/-- The backup of an artifact that a call made. -/
def Call.made (artifact : String) : Call → Except Failure Answer → List Backup
  | .create a _, .ok (.created b) => if a = artifact then [b] else []
  | _, _ => []

/-- The clock is in a year of four digits. -/
def Step.InYears (st : Step) : Prop :=
  1000 ≤ (Civil.ofSeconds (st.clock / 1000000)).year ∧
    (Civil.ofSeconds (st.clock / 1000000)).year ≤ 9999

theorem Ordered.does_create (h : s.Ordered artifact w bs) (hsafe : Name.Safe artifact) {a : String}
    (content : Bytes) (hreading : (w.readingFor a).Valid ∧ 1000 ≤ (w.readingFor a).year) :
    (s.call (.create a content)).run.Does (fun _ => True) w fun r v _ =>
      s.Ordered artifact v (bs ++ Call.made artifact (.create a content) r) := by
  obtain ⟨name, place, hcreates⟩ := Store.does_create s w a content
  refine does_andThen.mpr ((hcreates.and (h.founded.does_create_first a content)).mono
    (fun _ _ => trivial) ?_)
  rintro r v es ⟨⟨rfl, ⟨refusal, rfl, hv⟩ | ⟨hslot, rfl, rfl⟩⟩, hfirst⟩
  · refine ⟨trivial, ?_⟩
    rw [show Call.made artifact (.create a content) (.error (.refused refusal)) = [] from rfl,
      List.append_nil]
    rcases hv with rfl | rfl
    · exact h
    · exact h.of_alike hsafe (w.noting_alike a) (h.noted.noting hreading) (w.later_noting a)
  · obtain ⟨k, hk, hname, hbelow⟩ := hfirst _ rfl
    refine does_pure.mpr ⟨trivial, ?_⟩
    by_cases ha : a = artifact
    · subst ha
      simp only [Call.made, if_true]
      exact h.snoc hsafe hslot hreading hk hname hbelow
    · simp only [Call.made, ha, if_false, List.append_nil]
      exact h.withFile hsafe hslot hreading content

theorem Ordered.drops (h : s.Ordered artifact w bs) (hsafe : Name.Safe artifact)
    {given : String} (hdrops : Drops s given name w v) (hspares : s.Leaves artifact w v) :
    s.Ordered artifact v bs := by
  obtain ⟨-, -, hentry, rfl⟩ := hdrops
  have hset := Tree.remove_sets (t := w.tree) (p := s.folder ++ [name]) (by simp)
  refine h.kept hsafe (h.founded.of_sets hset rfl hentry) (h.distinct.remove _) h.noted
    (fun other howner hother => hset.other fun heq => ?_) (.of_noted rfl)
  exact hspares other howner hother (heq ▸ hset.self)

/-- A step that spares the artifact's backups keeps what was made in order, with what it makes
itself. -/
theorem Ordered.step (h : s.Ordered artifact w bs) (hsafe : Name.Safe artifact)
    (hyears : st.InYears) (hspares : s.Leaves artifact w (s.calls.advance w st)) :
    s.Ordered artifact (s.calls.advance w st) (bs ++ st.call.made artifact (s.calls.reply w st)) := by
  have hmeets : s.Ordered artifact (st.meets w) bs :=
    h.of_alike hsafe ⟨rfl, rfl⟩ h.noted (.of_noted rfl)
  have hreads (hstill : (s.call st.call).run.Still)
      (hmade : ∀ r, st.call.made artifact r = []) :
      s.Ordered artifact (s.calls.advance w st) (bs ++ st.call.made artifact (s.calls.reply w st)) := by
    rw [hmade, List.append_nil, advance_eq, hstill]
    exact hmeets
  rcases hcall : st.call with ⟨a, content⟩ | name | name | wanted
  · have hdoes := hmeets.does_create hsafe content (hmeets.noted.readingFor hyears a)
    rw [← hcall] at hdoes ⊢
    exact hdoes.ends
  · rw [← hcall]
    refine hreads (hcall ▸ still_read (.inl ⟨name, rfl⟩)) fun r => ?_
    rw [hcall, Call.made]
    simp
  · have hdoes : (s.call st.call).run.Does (fun _ => True) (st.meets w) fun _ v _ =>
        v = st.meets w ∨ ∃ gone, Drops s name gone (st.meets w) v := by
      rw [hcall]
      refine does_andThen.mpr ((hmeets.founded.does_delete name).mono (fun _ _ => trivial) ?_)
      rintro r v es (⟨⟨failure, rfl⟩, hv⟩ | ⟨rfl, hv⟩)
      · exact ⟨trivial, .inl hv⟩
      · exact does_pure.mpr ⟨trivial, .inr hv⟩
    have hmade : Call.made artifact (.delete name) (s.calls.reply w st) = [] := by
      rw [Call.made]
      simp
    rw [hmade, List.append_nil]
    rcases hdoes.ends with hv | ⟨gone, hv⟩
    · rw [advance_eq, hv]
      exact hmeets
    · exact hmeets.drops hsafe hv hspares
  · rw [← hcall]
    refine hreads (hcall ▸ still_read (.inr ⟨wanted, rfl⟩)) fun r => ?_
    rw [hcall, Call.made]
    simp

/-! ### Runs -/

/-- The backups of an artifact that a run makes, in the order in which it makes them. -/
def made (s : Store) (artifact : String) : World → List Step → List Backup
  | _, [] => []
  | w, st :: steps =>
    st.call.made artifact (s.calls.reply w st) ++ s.made artifact (s.calls.advance w st) steps

/-- No step of a run takes a backup of the artifact out of the folder. -/
def Sparing (s : Store) (artifact : String) : World → List Step → Prop
  | _, [] => True
  | w, st :: steps =>
    s.Leaves artifact w (s.calls.advance w st) ∧ s.Sparing artifact (s.calls.advance w st) steps

theorem Ordered.after (h : s.Ordered artifact w bs) (hsafe : Name.Safe artifact)
    (hyears : ∀ st ∈ steps, st.InYears) (hsparing : s.Sparing artifact w steps) :
    s.Ordered artifact (s.calls.after w steps) (bs ++ s.made artifact w steps) := by
  induction steps generalizing w bs with
  | nil =>
    rw [made, List.append_nil]
    exact h
  | cons st steps ih =>
    obtain ⟨hspares, hsparing⟩ := hsparing
    rw [made, ← List.append_assoc]
    exact ih (h.step hsafe (hyears st (by simp)) hspares)
      (fun st' hst' => hyears st' (List.mem_cons_of_mem _ hst')) hsparing

/-- A listing of the artifact's backups has those that were made, the last one first. -/
theorem Ordered.reverse_sublist (h : s.Ordered artifact w bs) (hsafe : Name.Safe artifact)
    {clock : Nat} {listed : List Backup}
    (hlisted : s.calls.reply w ⟨clock, .list (some artifact)⟩ = .ok (.listed listed)) :
    bs.reverse.Sublist listed := by
  let u : World := { w with clock }
  have hu : s.Ordered artifact u bs := h.of_alike hsafe ⟨rfl, rfl⟩ h.noted (.of_noted rfl)
  have hlist : (s.call (.list (some artifact))).run.Does (fun _ => True) u fun r _ _ =>
      ∀ listed, r = .ok (.listed listed) → (listed.Pairwise fun a b => b.name < a.name) ∧
        ∀ b, s.Shelved u b → b.artifact = artifact → b ∈ listed := by
    refine does_andThen.mpr ((hu.founded.does_list_shelved hu.distinct artifact).mono
      (fun _ _ => trivial) ?_)
    rintro (failure | bs') v es ⟨rfl, hbs⟩
    · exact ⟨trivial, by simp⟩
    · refine does_pure.mpr ⟨trivial, ?_⟩
      rintro _ ⟨⟩
      exact hbs bs' rfl
  obtain ⟨hdescends, hcomplete⟩ := hlist.ends listed hlisted
  have hmem : bs.reverse ⊆ listed := fun b hb => by
    rw [List.mem_reverse] at hb
    obtain ⟨reading, counter, last, hwritten, -⟩ := hu.passed b hb
    exact hcomplete b (hu.shelved b hb) hwritten.owner
  have hreverse : bs.reverse.Pairwise fun a b => b.name < a.name :=
    List.pairwise_reverse.mpr (hu.ascends.imp fun hbefore => hbefore.1)
  have hnodup : bs.reverse.Nodup := hreverse.imp fun hlt heq => by
    rw [heq] at hlt
    exact absurd hlt (String.lt_irrefl _)
  have hantisymm : Std.Antisymm fun a b : Backup => b.name < a.name :=
    ⟨fun _ _ hlt hlt' => absurd hlt (String.lt_asymm hlt')⟩
  exact List.sublist_of_subperm_of_pairwise (List.subperm_of_subset hnodup hmem) hreverse hdescends

/-- Nothing is made for an artifact whose name is no file name. -/
theorem made_of_not_safe (hsafe : Name.isSafe artifact = false) (w : World) (steps : List Step) :
    s.made artifact w steps = [] := by
  induction steps generalizing w with
  | nil => rfl
  | cons st steps ih =>
    rw [made, ih, List.append_nil]
    rcases hcall : st.call with ⟨a, content⟩ | name | name | wanted
    · by_cases ha : a = artifact
      · subst ha
        have hreply : s.calls.reply w st
            = .error (.refused (.invalidName ("Invalid artifact name: " ++ a))) := by
          rw [reply_eq, hcall, call, create, if_neg (by simp [hsafe])]
          rfl
        rw [hreply]
        rfl
      · rcases s.calls.reply w st with failure | answer
        · rfl
        · cases answer with
          | created b => simp [Call.made, ha]
          | _ => rfl
    all_goals rfl

/-! ### Runs that take nothing away -/

/-- A call that takes no backup away leaves every entry of the folder there. -/
theorem Founded.step (h : s.Founded w) (artifact : String) (hcall : ∀ name, st.call ≠ .delete name) :
    s.Founded (s.calls.advance w st) ∧ s.Leaves artifact w (s.calls.advance w st) := by
  obtain ⟨hfounded, hentries⟩ := h.step_cases st
  refine ⟨hfounded, fun name _ hthere => ?_⟩
  rcases hentries name with hkept | hgone | hmade
  · exact hthere.of_eq hkept
  · obtain ⟨given, hdelete, -⟩ := hgone.deletes
    exact absurd hdelete (hcall given)
  · exact absurd hthere hmade.fresh

theorem Founded.sparing (h : s.Founded w) (hcalls : ∀ st ∈ steps, ∀ name, st.call ≠ .delete name) :
    s.Sparing artifact w steps := by
  induction steps generalizing w with
  | nil => trivial
  | cons st steps ih =>
    obtain ⟨hfounded, hspares⟩ := h.step artifact (hcalls st (by simp))
    exact ⟨hspares, ih hfounded fun st' hst' => hcalls st' (List.mem_cons_of_mem _ hst')⟩

/-! ### The order of listings -/

/-- The backups that a store makes for an artifact, of which none is taken away, ascend by name and
never go back in time, and a listing shows them in the order opposite to the one they were made in. -/
theorem made_ascending (hfounded : s.Founded w) (hdistinct : w.tree.Distinct)
    (hnoted : w.NotedInYears) (hartifact : ∀ x ∈ artifact.toList, Name.isSafeChar x = true)
    (hyears : ∀ st ∈ steps, st.InYears) (hsparing : s.Sparing artifact w steps) :
    (s.made artifact w steps).Pairwise Backup.Before ∧
      ∀ clock bs, s.calls.reply (s.calls.after w steps) ⟨clock, .list (some artifact)⟩ = .ok (.listed bs) →
        (s.made artifact w steps).reverse.Sublist bs := by
  by_cases hsafe : Name.isSafe artifact = true
  · have hsafe' : Name.Safe artifact := .of_isSafe hsafe fun hbreak =>
      absurd (hartifact _ (List.mem_of_getLast? hbreak)) (by decide)
    have hordered := Ordered.after ⟨hfounded, hdistinct, hnoted, by simp, by simp, .nil⟩ hsafe'
      hyears hsparing
    rw [List.nil_append] at hordered
    exact ⟨hordered.ascends, fun clock bs hlisted => hordered.reverse_sublist hsafe' hlisted⟩
  · rw [made_of_not_safe (Bool.eq_false_iff.mpr hsafe)]
    exact ⟨.nil, fun _ _ _ => List.nil_sublist _⟩

/-- A backup at noon, one that is made an hour too early, and one of another artifact. -/
def aroundNoon : List Step :=
  [⟨World.noon, .create "a" [97]⟩, ⟨World.noon - 3600000000, .create "a" [98]⟩, ⟨World.noon, .create "b" []⟩]

theorem made_ascending_around_noon :
    shelf.Founded (emptyAt shelf.folder) ∧ (emptyAt shelf.folder).tree.Distinct ∧
      (emptyAt shelf.folder).NotedInYears ∧ (∀ x ∈ "a".toList, Name.isSafeChar x = true) ∧
      (∀ st ∈ aroundNoon, st.InYears) ∧ shelf.Sparing "a" (emptyAt shelf.folder) aroundNoon ∧
      (shelf.made "a" (emptyAt shelf.folder) aroundNoon).head?
        = some ⟨"a.20240501_120000.backup", "a", some ⟨2024, 5, 1, 12, 0, 0⟩, 1⟩ ∧
      (shelf.made "a" (emptyAt shelf.folder) aroundNoon).Pairwise Backup.Before := by
  have hfounded : shelf.Founded (emptyAt shelf.folder) := founded_emptyAt (by decide)
  have hdistinct : (emptyAt shelf.folder).tree.Distinct := Tree.spine_distinct _
  have hnoted : (emptyAt shelf.folder).NotedInYears := nofun
  have hsafe : Name.Safe "a" := .of_isSafe (by decide) (by decide)
  have hyears : ∀ st ∈ aroundNoon, st.InYears := by
    simp only [aroundNoon, List.forall_mem_cons, List.not_mem_nil, false_implies, implies_true,
      and_true]
    exact ⟨⟨by decide, by decide⟩, ⟨by decide, by decide⟩, ⟨by decide, by decide⟩⟩
  have hsparing : shelf.Sparing "a" (emptyAt shelf.folder) aroundNoon := by
    refine hfounded.sparing ?_
    simp [aroundNoon]
  have hfirst : shelf.calls.reply (emptyAt shelf.folder) ⟨World.noon, .create "a" [97]⟩
      = .ok (.created ⟨"a.20240501_120000.backup", "a", some ⟨2024, 5, 1, 12, 0, 0⟩, 1⟩) := by cbv
  refine ⟨hfounded, hdistinct, hnoted, hsafe.chars, hyears, hsparing, ?_, ?_⟩
  · rw [aroundNoon, made, hfirst]
    rfl
  · exact (made_ascending hfounded hdistinct hnoted hsafe.chars hyears hsparing).1

end Store
end ConfigSteward
