import ConfigSteward.Proofs.Backup.Order
import ConfigSteward.Proofs.Name.Distinct

/-!
# What runs from an empty folder have asked for and made

Whatever calls come and whatever the clock does, the reading noted last for an artifact is that of the
latest second in which a backup of it was asked for, and the backups that are in the folder are among
those that the run has made.
-/
namespace ConfigSteward

open Plan

namespace Store

variable {s : Store} {w v : World} {artifact name other : String} {content : Bytes} {b : Backup}
  {st : Step} {reading : Civil} {seconds : List Nat} {bs : List Backup}

/-- The second in which a step asks for a backup of the artifact. -/
def Step.asks (artifact : String) (st : Step) : Option Nat :=
  match st.call with
  | .create a _ => if a = artifact then some (st.clock / 1000000) else none
  | _ => none

/-- The seconds in which a run asks for backups of the artifact. -/
def asked (artifact : String) (steps : List Step) : List Nat := steps.filterMap (Step.asks artifact)

theorem Step.asks_of_create (hcall : st.call = .create artifact content) :
    st.asks artifact = some (st.clock / 1000000) := by
  simp [Step.asks, hcall]

/-- Only a call to back something up answers with a backup, which is named for what was backed up. -/
theorem Founded.create_of_created (h : s.Founded w) (hmade : s.calls.reply w st = .ok (.created b)) :
    ∃ artifact content, st.call = .create artifact content ∧ ∃ k ≤ lastCounter,
      b = ⟨Name.writeBackup artifact ((st.meets w).readingFor artifact) k, artifact,
        some ((st.meets w).readingFor artifact), content.length⟩ := by
  have hnever {α : Type} (t : Task α) (f : α → Answer) (hf : ∀ a, f a ≠ .created b) :
      ((t >>= fun a => pure (f a) : Task Answer).run.run (st.meets w)).1 ≠ .ok (.created b) := by
    have hdoes : (t >>= fun a => pure (f a) : Task Answer).run.Does (fun _ => True) (st.meets w)
        fun r _ _ => r ≠ .ok (.created b) := by
      have ht : t.run.Does (fun _ => True) (st.meets w) fun _ _ _ => True :=
        ⟨fun _ _ => trivial, trivial⟩
      refine does_andThen.mpr (ht.mono (fun _ _ => trivial) ?_)
      rintro (failure | a) v es -
      · exact ⟨trivial, by simp⟩
      · exact does_pure.mpr ⟨trivial, fun heq => hf a (Except.ok.inj heq)⟩
    exact hdoes.ends
  rcases hcall : st.call with ⟨artifact, content⟩ | given | given | wanted
  · obtain ⟨hslot, hb, -⟩ := h.created hcall hmade
    obtain ⟨k, hk, hname⟩ := hslot.named
    exact ⟨artifact, content, rfl, k, hk, by rw [← hname]; exact hb⟩
  · rw [reply_eq, hcall] at hmade
    exact absurd hmade (hnever (s.get given) .content (by simp))
  · rw [reply_eq, hcall] at hmade
    exact absurd hmade (hnever (s.delete given) (fun _ => .deleted) (by simp))
  · rw [reply_eq, hcall] at hmade
    exact absurd hmade (hnever (s.list wanted) .listed (by simp))

/-- A search for a name leaves the readings noted as they are. -/
theorem Tries.last_eq {counter tries : Nat} {r : Except Failure Backup}
    (h : s.Tries w artifact content reading counter tries r v) (other : String) :
    v.last other = w.last other := by
  cases h with
  | full => rfl
  | made => rfl
  | unwritten => rfl

/-- A step notes a reading for the artifact just if it asks for a backup of it. -/
theorem Founded.last_advance (h : s.Founded w) (hsafe : Name.isSafe artifact = true) (st : Step) :
    (s.calls.advance w st).last artifact
      = if (st.asks artifact).isSome then some ((st.meets w).readingFor artifact)
        else w.last artifact := by
  have hmeets : s.Founded (st.meets w) := h.of_alike ⟨rfl, rfl⟩
  rcases hcall : st.call with ⟨a, content⟩ | given | given | wanted
  · by_cases ha : a = artifact
    · subst ha
      have hdoes : (s.call st.call).run.Does (fun _ => True) (st.meets w) fun _ v _ =>
          v.last a = ((st.meets w).noting a).last a := by
        rw [hcall]
        refine does_andThen.mpr ((does_create_tries s _ hsafe content).mono (fun _ _ => trivial) ?_)
        rintro (failure | made) v es htries
        · exact ⟨trivial, htries.last_eq a⟩
        · exact does_pure.mpr ⟨trivial, htries.last_eq a⟩
      rw [Step.asks_of_create hcall, Option.isSome_some, if_pos rfl]
      exact hdoes.ends.trans (by rw [World.last_noting, if_pos rfl])
    · have hdoes : (s.call st.call).run.Does (fun _ => True) (st.meets w) fun _ v _ =>
          v.last artifact = w.last artifact := by
        rw [hcall]
        have hother : ((st.meets w).noting a).last artifact = w.last artifact := by
          rw [World.last_noting, if_neg (Ne.symm ha)]
          rfl
        obtain ⟨name, place, hcreates⟩ := Store.does_create s (st.meets w) a content
        refine does_andThen.mpr (hcreates.mono (fun _ _ => trivial) ?_)
        rintro r v es ⟨rfl, ⟨refusal, rfl, rfl | rfl⟩ | ⟨-, rfl, rfl⟩⟩
        · exact ⟨trivial, rfl⟩
        · exact ⟨trivial, hother⟩
        · exact does_pure.mpr ⟨trivial, hother⟩
      simp only [Step.asks, hcall, if_neg ha]
      exact hdoes.ends
  · simp only [Step.asks, hcall]
    rw [advance_eq, hcall, still_read (.inl ⟨given, rfl⟩)]
    rfl
  · simp only [Step.asks, hcall]
    have hdoes : (s.call st.call).run.Does (fun _ => True) (st.meets w) fun _ v _ =>
        v.last artifact = w.last artifact := by
      rw [hcall]
      refine does_andThen.mpr ((hmeets.does_delete given).mono (fun _ _ => trivial) ?_)
      rintro r v es (⟨⟨failure, rfl⟩, rfl⟩ | ⟨rfl, name, hdrops⟩)
      · exact ⟨trivial, rfl⟩
      · rw [hdrops.dropped]
        exact does_pure.mpr ⟨trivial, rfl⟩
    exact hdoes.ends
  · simp only [Step.asks, hcall]
    rw [advance_eq, hcall, still_read (.inr ⟨wanted, rfl⟩)]
    rfl

theorem Call.mem_made_iff {c : Call} {r : Except Failure Answer} : b ∈ c.made artifact r ↔
    ∃ content, c = .create artifact content ∧ r = .ok (.created b) := by
  unfold Call.made
  split
  · next a content made =>
    by_cases ha : a = artifact
    · simp [ha, eq_comm]
    · simp [ha]
  · next hother =>
    simp only [List.not_mem_nil, false_iff]
    rintro ⟨content, rfl, rfl⟩
    exact hother _ _ _ rfl rfl

/-- What a run from an empty folder has asked for and made: the reading noted last is that of the
latest second asked for, each backup that is there was made in the run, and each was made under the
reading of a second asked for. -/
structure Tallied (s : Store) (artifact : String) (w : World) (seconds : List Nat)
    (bs : List Backup) : Prop where
  founded : s.Founded w
  last : seconds = [] ∧ w.last artifact = none ∨
    ∃ n, IsGreatest {m | m ∈ seconds} n ∧ w.last artifact = some (Civil.ofSeconds n)
  entered : ∀ reading k, s.Taken w (Name.writeBackup artifact reading k) →
    ∃ b ∈ bs, b.name = Name.writeBackup artifact reading k
  dated : ∀ b ∈ bs, ∃ n ∈ seconds, b.created = some (Civil.ofSeconds n) ∧
    ∃ k, b.name = Name.writeBackup artifact (Civil.ofSeconds n) k

/-- The reading for the next backup is that of the latest second asked for. -/
theorem Tallied.readingFor (h : s.Tallied artifact w seconds bs) (clock : Nat) :
    ∃ n, IsGreatest {m | m ∈ seconds ++ [clock / 1000000]} n ∧
      ({ w with clock } : World).readingFor artifact = Civil.ofSeconds n := by
  rcases h.last with ⟨rfl, hlast⟩ | ⟨n, hn, hlast⟩
  · refine ⟨clock / 1000000, by simp [IsGreatest, upperBounds], ?_⟩
    rw [World.readingFor, show (w.noted.find? (·.1 = artifact)).map (·.2) = none from hlast]
  · refine ⟨max (clock / 1000000) n, ⟨?_, fun m hm => ?_⟩, ?_⟩
    · rcases max_choice (clock / 1000000) n with heq | heq
      · simp [heq]
      · rw [heq]
        exact List.mem_append_left _ hn.1
    · rcases List.mem_append.mp hm with hm | hm
      · exact le_max_of_le_right (hn.2 hm)
      · exact le_max_of_le_left (List.mem_singleton.mp hm).le
    · rw [World.readingFor_of_last (w := { w with clock }) hlast, Civil.latest_ofSeconds]

/-- A step is tallied with what it asks for and what it makes. -/
theorem Tallied.step (h : s.Tallied artifact w seconds bs) (hsafe : Name.isSafe artifact = true)
    (st : Step) : s.Tallied artifact (s.calls.advance w st) (seconds ++ (st.asks artifact).toList)
      (bs ++ st.call.made artifact (s.calls.reply w st)) := by
  obtain ⟨hfounded, hentries⟩ := h.founded.step_cases st
  obtain ⟨n, hn, hreading⟩ := h.readingFor st.clock
  refine ⟨hfounded, ?_, fun reading k htaken => ?_, fun b hb => ?_⟩
  · rw [h.founded.last_advance hsafe st]
    rcases hasks : st.asks artifact with _ | second
    · simpa using h.last
    · have hsecond : second = st.clock / 1000000 := by
        unfold Step.asks at hasks
        split at hasks
        · exact (Option.some.inj (Option.ite_none_right_eq_some.mp hasks).2).symm
        · cases hasks
      exact .inr ⟨n, hsecond ▸ hn, congrArg some hreading⟩
  · rcases hentries (Name.writeBackup artifact reading k) with hkept | hgone | hmade
    · obtain ⟨b, hb, hname⟩ := h.entered reading k (by rw [Taken, ← hkept]; exact htaken)
      exact ⟨b, List.mem_append_left _ hb, hname⟩
    · exact absurd htaken hgone.gone
    · obtain ⟨b, hreply, hname⟩ := hmade.answered
      obtain ⟨a, content, hcall, j, -, hb⟩ := h.founded.create_of_created hreply
      have hsame : Name.writeBackup a ((st.meets w).readingFor a) j
          = Name.writeBackup artifact reading k := by rw [← hname, hb]
      obtain ⟨rfl, -⟩ := Name.eq_of_writeBackup_eq hsame
      refine ⟨b, List.mem_append_right _ ?_, hname⟩
      rw [hreply, hcall, Call.made, if_pos rfl]
      exact List.mem_singleton_self b
  · rcases List.mem_append.mp hb with hb | hb
    · obtain ⟨m, hm, hdated⟩ := h.dated b hb
      exact ⟨m, List.mem_append_left _ hm, hdated⟩
    · obtain ⟨content, hcall, hreply⟩ := Call.mem_made_iff.mp hb
      obtain ⟨a, content', hcall', k, -, rfl⟩ := h.founded.create_of_created hreply
      obtain ⟨rfl, -⟩ := Call.create.inj (hcall.symm.trans hcall')
      have hreading' : (st.meets w).readingFor artifact = Civil.ofSeconds n := hreading
      rw [Step.asks_of_create hcall]
      exact ⟨n, hn.1, congrArg some hreading', k, by rw [hreading']⟩

theorem Tallied.after (h : s.Tallied artifact w seconds bs) (hsafe : Name.isSafe artifact = true)
    (steps : List Step) : s.Tallied artifact (s.calls.after w steps) (seconds ++ asked artifact steps)
      (bs ++ s.made artifact w steps) := by
  induction steps generalizing w seconds bs with
  | nil => simpa [asked, made] using h
  | cons st steps ih =>
    have hseconds : (st.asks artifact).toList ++ asked artifact steps
        = asked artifact (st :: steps) := by
      rw [asked, asked, List.filterMap_cons]
      cases st.asks artifact <;> rfl
    have hrest := ih (h.step hsafe st)
    rw [List.append_assoc, List.append_assoc, hseconds] at hrest
    exact hrest

/-- A run of a store that was opened in an empty folder is tallied. -/
theorem Founded.tallied (h : s.Founded w) (hempty : ∀ name, ¬ s.Taken w name)
    (hnoted : w.noted = []) (hsafe : Name.isSafe artifact = true) (steps : List Step) :
    s.Tallied artifact (s.calls.after w steps) (asked artifact steps) (s.made artifact w steps) := by
  have hstart : s.Tallied artifact w [] [] :=
    ⟨h, .inl ⟨rfl, by simp [World.last, hnoted]⟩,
      fun _ _ htaken => absurd htaken (hempty _), by simp⟩
  simpa using hstart.after hsafe steps

end Store
end ConfigSteward
