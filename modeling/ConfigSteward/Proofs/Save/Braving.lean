import ConfigSteward.Proofs.Save.Hindered
import ConfigSteward.Proofs.Save.Settling
import ConfigSteward.Proofs.World.Braving

/-!
# Saves amid mishaps before the check

File calls may fail until the new content is checked; from then on, while the prior content is put
back, they do not. Then a save ends as it may without mishaps, but for two more ends: a backup that was
begun may stay, and where the temporary file could not be taken away that stays.
-/
namespace ConfigSteward.Save

open Plan

variable {hazard : Hazard} {s : Save} {store : Store} {c : Controller} {w v : World}
  {prior : Option Bytes} {name : String} {place : Place}

/-- How a save may end where nothing goes wrong after the check. -/
inductive Meets (hazard : Hazard) (s : Save) (store : Store) (c : Controller) (w : World) :
    Except Failure Outcome → World → List Execution → Prop where
  | well {prior : Option Bytes} {name : String} {place : Place} {r : Except Failure Outcome}
      {v : World} {es : List Execution} (ends : s.Ends store c w prior name place r v es) :
      Meets hazard s store c w r v es
  | begun {prior : Option Bytes} {v : World} (message : Option String)
      (hprior : Prior w s.path prior) (safe : Name.isSafe s.artifact = true)
      (begins : store.Begins (w.noting s.artifact) s.artifact (w.readingFor s.artifact)
        (prior.getD []) 0 (Store.lastCounter + 1) v) :
      Meets hazard s store c w
        (.ok { artifact := s.artifact, error := some .backupFailed, message := message }) v []
  | littered {prior : Option Bytes} {name : String} {place : Place} {v : World}
      (message : Option String) (backs : s.Backs store w prior name place)
      (untidy : ¬ hazard.Tidy) (littered : (s.stored w prior place).Littered s.path v) :
      Meets hazard s store c w
        (.ok { s.backedUp name with error := some .writeFailed, message := message }) v []

section
variable (hw : w.Sound) (hp : w.Steady s.path) (hquiet : w.Quiet) (hblatant : hazard.Blatant)
  (hceases : hazard.CeasesAfter w.ran.length)
include hw hp hquiet hblatant hceases

theorem braves_writeStep (backs : s.Backs store w prior name place) :
    (s.writeStep c prior (s.backedUp name)).run.Braves hazard (s.stored w prior place)
      (s.Meets hazard store c w) := by
  rw [writeStep]
  refine always_andThen.mpr (Task.always_attemptFile.mpr
    (((FileTask.always_replace (backs.sound hw) s.path s.content).braves_none ?_).mono ?_))
  · rintro (f | ⟨⟩) v marks hresult mark hmark
    · have hhidden := hresult.1 mark hmark
      cases mark <;> first | rfl | exact hhidden.elim
    · obtain ⟨⟨temp, -, rfl⟩, -⟩ := hresult
      rcases List.mem_cons.mp hmark with rfl | hmark
      · rfl
      · rw [List.mem_singleton.mp hmark]
        rfl
  · rintro (f | ⟨⟩) v es ⟨rfl, marks, hresult⟩
    · obtain ⟨-, hlittered, hdug⟩ := hresult
      by_cases htidy : hazard.Tidy
      · exact .well (.unwritten _ backs (hdug htidy))
      · exact .littered _ backs htidy hlittered
    · obtain ⟨-, u, goal, mode, -, -, -, hreplaces, rfl⟩ := hresult
      have hcheck := does_checkStep (c := c) hw hp hquiet ⟨backs, hreplaces hblatant⟩
      obtain ⟨next, hnext⟩ : ∃ next, (s.checkStep c prior { s.backedUp name with
          applied := true }).run = ask (.run (s.checkArgs c)) next := ⟨_, rfl⟩
      have hceases' : hazard.CeasesAfter (s.written u goal mode).ran.length := by
        obtain ⟨t, -, rfl⟩ := (hreplaces hblatant).dug
        exact hceases
      rw [hnext] at hcheck
      have hbraves := hcheck.braves_ran hceases'
      rw [← hnext] at hbraves
      exact hbraves.mono fun r v es hends => .well hends

/-- How a save ends where nothing goes wrong after the check. -/
theorem braves_run (store : Store) (c : Controller) :
    (s.run store c).run.Braves hazard w (s.Meets hazard store c w) := by
  have hrefused {message : Option String} {v : World} (hv : v = w ∨ v = w.noting s.artifact) :
      s.Meets hazard store c w
        (.ok { artifact := s.artifact, error := some .backupFailed, message := message }) v [] := by
    have hends : s.Ends store c w none "" [] _ v [] := .refused message hv
    exact .well hends
  refine Lock.braves_hold _ (fun _ _ place _ => ?_) ?_
  · have hends : s.Ends store c w none "" [] _ w [] := .looped place
    exact .well hends
  rw [steps]
  refine always_andThen.mpr (Task.always_attemptFile.mpr
    (((always_priorContent w s.path).braves_none ?_).mono ?_))
  · rintro r v marks ⟨-, rfl, -⟩
    simp
  rintro (f | prior) v es ⟨rfl, marks, rfl, -, hprior⟩
  · exact hrefused (.inl rfl)
  change (s.backupStep store c prior).run.Braves hazard v _
  rw [backupStep]
  refine always_andThen.mpr (Task.always_attempt.mpr
    (((store.always_create v s.artifact (prior.getD [])).braves_none ?_).mono ?_))
  · rintro (failure | b) u marks hcreated mark hmark
    · rw [hcreated.1] at hmark
      cases hmark
    · rw [hcreated.1] at hmark
      rw [List.mem_singleton.mp hmark]
      rfl
  rintro (failure | b) u es ⟨rfl, marks, hcreated⟩
  · obtain ⟨-, ⟨refusal, rfl, -⟩, hv⟩ := hcreated
    rcases hv with hv | hv | ⟨-, hsafe, hbegins⟩
    · exact hrefused (.inl hv)
    · exact hrefused (.inr hv)
    · exact .begun _ (hprior prior rfl) hsafe hbegins
  · obtain ⟨-, -, place, hslot, rfl⟩ := hcreated
    exact braves_writeStep hw hp hquiet hblatant hceases ⟨hprior prior rfl, hslot⟩

end

/-- A place that the temporary file of the save may have. -/
def Litters (s : Save) (w : World) (q : Place) : Prop :=
  w.tree.get? q = none ∧ ∃ r n, q = r ++ [World.tempName s.path.name n]

/-- Where nothing goes wrong after the check, a save reverts or applies as it does without mishaps,
but for a temporary file that could not be taken away. -/
theorem Meets.settles {r : Except Failure Outcome} {v : World} {es : List Execution}
    (hw : w.Regular) (hs : ".." ∉ store.folder) (h : s.Meets hazard store c w r v es) :
    w.Alters v (fun q => s.Touches store w q ∨ ¬ hazard.Tidy ∧ s.Litters w q) ∧
      ((∀ o, r = .ok o → FailsEarly o) ∧ (w.Firm s.path → ∀ q, ¬ store.Owns q →
          ¬ (¬ hazard.Tidy ∧ s.Litters w q) → v.tree.bytesAt q = w.tree.bytesAt q) ∨
        s.Applies c w v) := by
  cases h with
  | well ends =>
    obtain ⟨halters, hsettles⟩ := ends.settles hw hs
    refine ⟨halters.mono fun _ hq => .inl hq, hsettles.imp_left fun ⟨hfails, hreverts⟩ => ?_⟩
    exact ⟨hfails, fun hfirm q hq _ => hreverts hfirm q hq⟩
  | @begun prior _ message hprior safe begins =>
    obtain ⟨name, place, k, hslot, rfl⟩ := begins.slot safe
    have halters := hslot.alters hw hs ((prior.getD []).take k)
    refine ⟨halters.mono fun _ hq => .inl (.inr hq), .inl ⟨fun o ho => ?_, fun _ q hq _ => ?_⟩⟩
    · cases ho
      exact .inl rfl
    · exact halters.bytesAt fun hfree => hq hfree.1
  | @littered prior _ _ _ message backs untidy littered =>
    have hbacked := backs.slot.alters hw hs (prior.getD [])
    have halters : w.Alters v fun q => store.Free w q ∨ ¬ hazard.Tidy ∧ s.Litters w q := by
      obtain ⟨u, hdug, rfl | ⟨r, n, content, mode, vacant, rfl⟩⟩ := littered
      · exact (hbacked.trans (.of_dug hdug)).mono fun _ hq => .inl hq
      · have hnew : w.tree.get? (r ++ [World.tempName s.path.name n]) = none := by
          by_contra hthere
          have hkept := (hbacked.trans (.of_dug hdug)).kept (fun hfree => hthere hfree.2) hthere
          exact hthere (hkept.symm.trans vacant)
        have hset : u.tree.Sets (r ++ [World.tempName s.path.name n]) _
            (FileTask.tempIn u s.path r n content mode).tree :=
          Tree.put_sets (Tree.ne_nil_of_leaf (Tree.skeleton_of_vacant vacant)) _
        exact ((hbacked.trans (.of_dug hdug)).mono fun _ hq => .inl hq).trans
          (.of_sets hset rfl (Tree.skeleton_of_vacant vacant) (Tree.skeleton_of_file hset.self)
            (.inr ⟨untidy, hnew, r, n, rfl⟩))
    refine ⟨halters.mono fun _ hq => hq.imp_left .inr, .inl ⟨fun o ho => ?_, fun _ q hq hlitter => ?_⟩⟩
    · cases ho
      exact .inr (.inl rfl)
    · exact halters.bytesAt fun htouched => htouched.elim (fun hfree => hq hfree.1) hlitter

end ConfigSteward.Save
