import ConfigSteward.Proofs.Save.Failing
import ConfigSteward.Proofs.Servers.Contents
import ConfigSteward.Proofs.Site.Braving

/-!
# Calls on server files

Every call on server files answers as the map of their contents says, and leaves a folder that shows
what the map is then. Where calls to the files fail it does so but for the ends that `Contents.Bears`
lists.
-/
namespace ConfigSteward

open Plan

namespace Site

variable {s : Site} {hazard : Hazard} {w v : World} {folder place : Place} {m : Contents}
  {given : Option String} {content : Option RawText} {file name : String} {bytes : Bytes} {mode : Nat}

/-- A call answers and changes the folder as the map of its contents may amid mishaps. -/
def Refines (s : Site) (folder : Place) (m : Contents) (hazard : Hazard) (c : Call)
    (r : Except Failure Answer) (v : World) : Prop :=
  ∃ m', m.Bears s hazard c r m' ∧ s.Shows folder m' v

/-- The file that the given name means has a name and a path that are not too long. -/
def Roomy (s : Site) (given : Option String) : Prop := ∀ file, s.Means given file → s.Fits file

theorem always_refining {α : Type} {task : Task α} {f : α → Answer} {c : Call}
    (h : task.run.Leaves hazard w fun r v _ => s.Refines folder m hazard c (r.map f) v) :
    (task >>= fun a => pure (f a)).run.Leaves hazard w fun r v _ =>
      s.Refines folder m hazard c r v := by
  refine (always_answer h).mono ?_
  rintro r v marks ⟨r', rfl, hrefines⟩
  exact hrefines

/-- Distinct names in order ascend. -/
theorem ascends_of_nodup {names : List String} (h : names.Nodup) :
    (names.mergeSort fun a b => a ≤ b).Pairwise (· < ·) := by
  have hsorted : (names.mergeSort fun a b => a ≤ b).Pairwise fun a b => decide (a ≤ b) = true := by
    refine List.pairwise_mergeSort (fun a b c hab hbc => ?_) (fun a b => ?_) names
    · exact decide_eq_true (String.le_trans (of_decide_eq_true hab) (of_decide_eq_true hbc))
    · simpa using String.le_total a b
  have hnodup := (List.mergeSort_perm names fun a b => a ≤ b).nodup_iff.mpr h
  refine (hsorted.and hnodup).imp fun ⟨hle, hne⟩ => ?_
  by_contra hlt
  exact hne (String.le_antisymm (of_decide_eq_true hle) (String.not_lt.mp hlt))

namespace Shows

variable (h : s.Shows folder m w)
include h

theorem answers {c : Call} {r : Except Failure Answer} (hanswers : m.Answers s c r m) :
    s.Refines folder m hazard c r w := ⟨m, .answers hanswers, h⟩

/-- A mishap that ends a call leaves the folder as it was. -/
theorem stumbles {c : Call} {failure : Failure} (hc : ¬ c.Saves) (hstumbles : Stumbles hazard failure) :
    s.Refines folder m hazard c (.error failure) w := ⟨m, .stumbles hc hstumbles, h⟩

/-- A call goes on with the file that a given name means, or refuses the name. -/
theorem always_named {α : Type} {c : Call} {f : α → Answer} {next : Path → Task α}
    (hgiven : given ∈ c.given) (hnext : ∀ file, s.Means given file →
      (next (s.servers.child file)).run.Leaves hazard w fun r v _ =>
        s.Refines folder m hazard c (r.map f) v) :
    (s.serverPathTask given >>= next).run.Leaves hazard w fun r v _ =>
      s.Refines folder m hazard c (r.map f) v := by
  rw [serverPathTask]
  rcases s.serverPath_cases given with ⟨file, hmeans, hpath⟩ | ⟨refusal, hbad, hkind, hpath⟩
  · rw [hpath]
    exact hnext file hmeans
  · rw [hpath]
    exact h.answers (.invalid hgiven hbad hkind)

theorem leadsIn_eq (hfile : s.Fits file) {test : Status → Bool}
    (htest : ∀ mode size changed, test ⟨.file, mode, size, changed⟩ = true) :
    FileTask.leadsIn w (s.servers.child file) test = .ok (m file).isSome := by
  have hlands := h.lands hfile
  rcases hbytes : m file with _ | bytes
  · rw [FileTask.leadsIn, hlands.look_vacant (h.vacant_iff.mp hbytes)]
    rfl
  · obtain ⟨mode, changed, hget⟩ := h.file_of_some hbytes
    rw [FileTask.leadsIn, hlands.look_file hget]
    exact congrArg Except.ok (htest _ _ _)

/-- A test of whether there is the file tells, or it fails. -/
theorem always_leads (hblatant : hazard.Blatant) (hfile : s.Fits file) {test : Status → Bool}
    (htest : ∀ mode size changed, test ⟨.file, mode, size, changed⟩ = true) :
    (Task.ofFile (FileTask.leads (s.servers.child file) test)).run.Leaves hazard w fun r v _ =>
      v = w ∧ (r = .ok (m file).isSome ∨ ∃ failure, Stumbles hazard failure ∧ r = .error failure) := by
  refine Task.always_ofFile.mpr (FileTask.always_leads.mpr ⟨⟨rfl, .inl ?_⟩, fun f hf => ⟨rfl, .inr ?_⟩⟩)
  · rw [h.leadsIn_eq hfile htest]
    rfl
  · exact ⟨.fault f, .untold hf, by simp [hblatant hf, Except.mapError]⟩

/-! ### Reading -/

theorem always_readText (hfile : s.Fits file) (label : String) :
    (readText (s.servers.child file) label).run.Leaves hazard w fun r v _ => v = w ∧
      (m file = none ∧ r = .error (.refused (.notFound (label ++ " not found"))) ∨
        (∃ bytes, m file = some bytes ∧ r = .ok (Text.decodeLossy bytes)) ∨
          ∃ failure, Stumbles hazard failure ∧ r = .error failure) := by
  have hlands := h.lands hfile
  rw [readText]
  refine always_andThen.mpr (Task.always_attemptFile.mpr (FileTask.always_read.mpr
    ⟨?_, fun f hf => ?_⟩))
  · rcases hbytes : m file with _ | bytes
    · rw [hlands.read_vacant (h.vacant_iff.mp hbytes)]
      exact ⟨rfl, .inl ⟨rfl, rfl⟩⟩
    · obtain ⟨mode, changed, hget⟩ := h.file_of_some hbytes
      rw [hlands.read_file hget]
      exact ⟨rfl, .inr (.inl ⟨bytes, rfl, rfl⟩)⟩
  · simp only [(hazard.untimely hf).1, if_false]
    exact ⟨rfl, .inr (.inr ⟨_, .barred (r := .read _) trivial hf, rfl⟩)⟩

theorem always_read (hroom : s.Roomy given) :
    (s.call (.readServer given)).run.Leaves hazard w fun r v _ =>
      s.Refines folder m hazard (.readServer given) r v := by
  refine always_refining (h.always_named List.mem_cons_self fun file hmeans => ?_)
  rw [Path.name_child]
  refine always_andThen.mpr ((h.always_readText (hroom file hmeans) _).mono ?_)
  rintro r v marks ⟨rfl, ⟨habsent, rfl⟩ | ⟨bytes, hbytes, rfl⟩ | ⟨failure, hstumbles, rfl⟩⟩
  · exact h.answers (.readsNone hmeans habsent)
  · exact h.answers (.reads hmeans hbytes)
  · exact h.stumbles id hstumbles

/-! ### Saving -/

private theorem putsBack (hfile : s.Fits file) (mode : Nat) (prior : Option Bytes) :
    s.Shows folder (Function.update m file prior)
      { w with tree := w.tree.putBack (folder ++ [file]) mode prior } := by
  cases prior with
  | none => exact h.removes hfile
  | some bytes => exact h.puts hfile bytes mode .lately

private theorem prior_eq {prior : Option Bytes} (hfile : s.Fits file)
    (hprior : Save.Prior w (s.servers.child file) prior) : prior = m file := by
  have hlands := h.lands hfile
  rcases hbytes : m file with _ | bytes
  · have hread := hlands.read_vacant (h.vacant_iff.mp hbytes)
    cases prior with
    | none => rfl
    | some bytes => cases hread.symm.trans hprior
  · obtain ⟨mode, changed, hget⟩ := h.file_of_some hbytes
    exact hprior.eq_some (hlands.read_file hget)

/-- A save puts its content into the map, or leaves the map alone, as its outcome tells. -/
theorem saves {content : String} {prior : Option Bytes} {o : Outcome} {es : List Execution}
    (hmeans : s.Means given file) (hfile : s.Fits file)
    (hends : (s.serverSave (s.servers.child file) content).Ends s.store s.controller w prior name
      place (.ok o) v es) :
    s.Refines folder m hazard (.saveServer given (.whole content)) (.ok (.outcome o)) v := by
  have hstored (backs : (s.serverSave (s.servers.child file) content).Backs s.store w prior name place) :
      s.Shows folder m ((s.serverSave (s.servers.child file) content).stored w prior place) :=
    h.backs backs.slot _
  cases hends with
  | refused message hv =>
    exact (h.of_alike (World.alike_of_noting hv)).answers
      (.keeps hmeans (Save.not_lasting_of_error rfl (.inl rfl)))
  | unwritten message backs dug =>
    obtain rfl := dug.of_lands (hstored backs).sound ((hstored backs).lands hfile)
    exact (hstored backs).answers (.keeps hmeans (Save.not_lasting_of_error rfl (.inr rfl)))
  | @rejected u goal mode result writes hresult bad =>
    obtain ⟨rfl, rfl, -⟩ := writes.replaces.of_lands (hstored writes.backs).sound
      ((hstored writes.backs).lands hfile)
    have hsame : Function.update m file prior = m := by
      rw [h.prior_eq hfile writes.backs.prior, Function.update_eq_self]
    have hback := (hstored writes.backs).putsBack hfile mode prior
    rw [hsame] at hback
    exact ⟨m, .answers (.keeps hmeans (Save.not_lasting_rejected _ _ _)), hback.of_alike ⟨rfl, rfl⟩⟩
  | accepted writes hresult good still =>
    obtain ⟨rfl, rfl, -⟩ := writes.replaces.of_lands (hstored writes.backs).sound
      ((hstored writes.backs).lands hfile)
    exact ⟨_, .answers (.saves hmeans rfl (Save.lasting_checked _ _ _)),
      ((hstored writes.backs).puts hfile _ _ _).of_alike ⟨rfl, rfl⟩⟩
  | reloaded writes hresult good hresult' =>
    obtain ⟨rfl, rfl, -⟩ := writes.replaces.of_lands (hstored writes.backs).sound
      ((hstored writes.backs).lands hfile)
    exact ⟨_, .answers (.saves hmeans rfl (Save.lasting_afterReload _ _ _ _)),
      ((hstored writes.backs).puts hfile _ _ _).of_alike ⟨rfl, rfl⟩⟩

/-- A backup that a save began is elsewhere. -/
theorem saves_amid {content : String} {o : Outcome} {es : List Execution} (htidy : hazard.Tidy)
    (hmeans : s.Means given file) (hfile : s.Fits file)
    (hmeets : (s.serverSave (s.servers.child file) content).Meets hazard s.store s.controller w
      (.ok o) v es) :
    s.Refines folder m hazard (.saveServer given (.whole content)) (.ok (.outcome o)) v := by
  cases hmeets with
  | well ends => exact h.saves hmeans hfile ends
  | begun message hprior safe begins =>
    obtain ⟨name, place, k, hslot, rfl⟩ := begins.slot safe
    exact (h.backs hslot _).answers (.keeps hmeans (Save.not_lasting_of_error rfl (.inl rfl)))
  | littered _ _ untidy => exact absurd htidy untidy

theorem always_save (hquiet : w.Quiet) (hblatant : hazard.Blatant)
    (hceases : hazard.CeasesAfter w.ran.length) (htidy : hazard.Tidy) (hroom : s.Roomy given)
    (content : RawText) :
    (s.call (.saveServer given content)).run.Leaves hazard w fun r v _ =>
      s.Refines folder m hazard (.saveServer given content) r v := by
  refine always_refining (h.always_named List.mem_cons_self fun file hmeans => ?_)
  cases content with
  | broken text => exact h.answers (.unencodable hmeans rfl)
  | whole content =>
    have hfile := hroom file hmeans
    refine always_iff.mpr fun r v hend => ?_
    obtain ⟨es, hmeets⟩ := hend.satisfies (Save.braves_run
      (s := s.serverSave (s.servers.child file) content) h.sound (.inl ⟨_, h.lands hfile⟩) hquiet
      hblatant hceases s.store s.controller)
    obtain ⟨o, rfl⟩ := Save.outcome_of_resolves ⟨_, h.resolves hfile.plain⟩ hend
    exact h.saves_amid htidy hmeans hfile hmeets

/-! ### Creating, renaming and deleting -/

theorem always_create (hroom : s.Roomy given) :
    (s.call (.createServer given content)).run.Leaves hazard w fun r v _ =>
      s.Refines folder m hazard (.createServer given content) r v := by
  refine always_refining (h.always_named List.mem_cons_self fun file hmeans => ?_)
  have hfile := hroom file hmeans
  have hlands := h.lands hfile
  have hcases : m file = none ∧ w.vacancy (s.servers.child file) = .ok (folder ++ [file]) ∨
      m file ≠ none ∧ w.vacancy (s.servers.child file)
        = World.fault .alreadyThere (s.servers.child file) := by
    by_cases habsent : m file = none
    · exact .inl ⟨habsent, hlands.vacancy_eq (h.vacant_iff.mp habsent)⟩
    · exact .inr ⟨habsent, World.vacancy_of_taken hlands.walk (h.vacant_iff.not.mp habsent)⟩
  refine Lock.always_hold_of_resolves (by simpa using ⟨_, h.resolves hfile.plain⟩) ?_
  refine always_andThen.mpr (Task.always_attemptFile.mpr ?_)
  rcases hcontent : newContent content with text | text
  · refine (FileTask.always_createWith w _ _).mono ?_
    rintro (f | ⟨⟩) v marks hmade
    · obtain ⟨-, ⟨hfault, rfl⟩ | ⟨huntimely, hv⟩⟩ := hmade
      · obtain ⟨-, hvacancy⟩ | ⟨hpresent, hvacancy⟩ := hcases
        · cases hvacancy.symm.trans hfault
        · cases hvacancy.symm.trans hfault
          rw [Path.name_child]
          exact h.answers (.createsNone hmeans hpresent)
      · simp only [huntimely.2, if_false]
        obtain ⟨hstrikes, rfl⟩ | ⟨htears, place, k, hvacant, rfl⟩ := hv
        · exact h.stumbles id (.barred (r := .create _) trivial hstrikes)
        · obtain ⟨habsent, hvacancy⟩ | ⟨-, hvacancy⟩ := hcases
          · obtain rfl := Except.ok.inj (hvacancy.symm.trans hvacant)
            exact ⟨_, .begins k hmeans (by rw [hcontent]; rfl) habsent htears, h.puts hfile _ _ _⟩
          · cases hvacancy.symm.trans hvacant
    · obtain ⟨-, place, hvacant, rfl⟩ := hmade
      obtain ⟨habsent, hvacancy⟩ | ⟨-, hvacancy⟩ := hcases
      · obtain rfl := Except.ok.inj (hvacancy.symm.trans hvacant)
        exact ⟨_, .answers (.creates hmeans (by rw [hcontent]; rfl) habsent), h.puts hfile _ _ _⟩
      · cases hvacancy.symm.trans hvacant
  · refine FileTask.always_create.mpr ⟨?_, fun f hf => ?_⟩
    · obtain ⟨habsent, hvacancy⟩ | ⟨hpresent, hvacancy⟩ := hcases
      · rw [World.add, hvacancy]
        exact ⟨_, .hollow hmeans (by rw [hcontent]; rfl) habsent, h.puts hfile _ _ _⟩
      · rw [World.add, hvacancy, Path.name_child]
        exact h.answers (.createsNone hmeans hpresent)
    · simp only [(hazard.untimely hf).2, if_false]
      exact h.stumbles id (.barred (r := .create _) trivial hf)

/-- The backup that a deletion makes, if it makes one, or begins is elsewhere. -/
theorem always_backUpIfPossible (p : Path) : (s.backUpIfPossible p).run.Leaves hazard w fun r v _ =>
    (∃ backup, r = .ok backup) ∧ s.Shows folder m v := by
  refine always_andThen.mpr (Task.always_attemptFile.mpr
    ((Idle.asking.asks (.read p) trivial hazard w).mono ?_))
  rintro (f | content) v marks ⟨rfl, -⟩
  · exact ⟨⟨none, rfl⟩, h⟩
  refine always_andThen.mpr (Task.always_attempt.mpr
    ((s.store.always_create v p.name content).mono ?_))
  rintro (failure | b) u marks hcreated
  · obtain ⟨-, ⟨refusal, rfl, -⟩, hu⟩ := hcreated
    refine ⟨⟨none, rfl⟩, ?_⟩
    obtain rfl | rfl | ⟨-, hsafe, hbegins⟩ := hu
    · exact h
    · exact h.of_alike (v.noting_alike _)
    · obtain ⟨name, place, k, hslot, rfl⟩ := hbegins.slot hsafe
      exact h.backs hslot _
  · obtain ⟨-, -, place, hslot, rfl⟩ := hcreated
    exact ⟨⟨_, rfl⟩, h.backs hslot _⟩

theorem always_delete (hblatant : hazard.Blatant) (hroom : s.Roomy given) :
    (s.call (.deleteServer given)).run.Leaves hazard w fun r v _ =>
      s.Refines folder m hazard (.deleteServer given) r v := by
  refine always_refining (h.always_named List.mem_cons_self fun file hmeans => ?_)
  have hfile := hroom file hmeans
  refine Lock.always_hold_of_resolves (by simpa using ⟨_, h.resolves hfile.plain⟩) ?_
  refine always_andThen.mpr ((h.always_leads hblatant hfile fun _ _ _ => rfl).mono ?_)
  rintro r v marks ⟨rfl, rfl | ⟨failure, hstumbles, rfl⟩⟩
  · rw [Path.name_child]
    rcases hbytes : m file with _ | bytes
    · exact h.answers (.deletesNone hmeans hbytes)
    refine always_andThen.mpr ((h.always_backUpIfPossible _).mono ?_)
    rintro r u marks ⟨⟨backup, rfl⟩, hu⟩
    obtain ⟨mode, changed, hget⟩ := hu.file_of_some hbytes
    refine always_andThen.mpr (Task.always_attemptFile.mpr (FileTask.always_unlink.mpr
      ⟨?_, fun f hf => ?_⟩))
    · rw [(hu.lands hfile).unlink_file hget]
      exact ⟨_, .answers (.deletes backup hmeans (by simp [hbytes])), hu.removes hfile⟩
    · simp only [(hazard.untimely hf).1, if_false]
      exact Shows.stumbles hu id (.barred (r := .unlink _) trivial hf)
  · exact h.stumbles id hstumbles

theorem always_rename (hblatant : hazard.Blatant) {old new : Option String} (hold : s.Roomy old)
    (hnew : s.Roomy new) :
    (s.call (.renameServer old new)).run.Leaves hazard w fun r v _ =>
      s.Refines folder m hazard (.renameServer old new) r v := by
  refine always_refining (f := fun names : String × String => .renamed names.1 names.2) ?_
  rw [renameServer]
  split
  · next hempty =>
    have hbad (file : String) : ¬ s.Means new file := by
      rintro ⟨hfile, -⟩
      rcases (by simpa using hempty) with rfl | rfl <;> cases hfile
    exact h.answers (.invalid (by simp [Call.given]) hbad rfl)
  refine h.always_named (by simp [Call.given]) fun source hsource => ?_
  refine h.always_named (by simp [Call.given]) fun target htarget => ?_
  have hfits := hold source hsource
  have hfits' := hnew target htarget
  refine Lock.always_hold_of_resolves
    (by simpa using ⟨⟨_, h.resolves hfits.plain⟩, ⟨_, h.resolves hfits'.plain⟩⟩) ?_
  refine always_andThen.mpr ((h.always_leads hblatant hfits fun _ _ _ => rfl).mono ?_)
  rintro r v marks ⟨rfl, rfl | ⟨failure, hstumbles, rfl⟩⟩
  swap
  · exact h.stumbles id hstumbles
  rcases hbytes : m source with _ | bytes
  · rw [Path.name_child]
    exact h.answers (.renamesNone hsource htarget hbytes)
  refine always_andThen.mpr ((h.always_leads hblatant hfits' fun _ _ _ => rfl).mono ?_)
  rintro r u marks ⟨rfl, rfl | ⟨failure, hstumbles, rfl⟩⟩
  swap
  · exact h.stumbles id hstumbles
  rcases habsent : m target with _ | bytes'
  · obtain ⟨mode, changed, hget⟩ := h.file_of_some hbytes
    have hne : source ≠ target := by
      rintro rfl
      cases hbytes.symm.trans habsent
    have hlands := h.lands hfits'
    have hmove := World.move_file (h.lands hfits) hget hlands.walk hlands.ne_folder
      (by simpa using hne)
    refine always_andThen.mpr (Task.always_ofFileOr.mpr (FileTask.always_move.mpr
      ⟨?_, fun f hf => ?_⟩))
    · rw [hmove]
      refine ⟨_, ?_, (h.removes hfits).puts hfits' bytes mode changed⟩
      simp only [Path.name_child]
      exact .answers (.renames hsource htarget hbytes habsent)
    · exact h.stumbles id (.barred (r := .move _ _) trivial hf)
  · simp only [Path.name_child]
    exact h.answers (.renamesOnto hsource htarget (by simp [hbytes]) (by simp [habsent]))

/-! ### Listing -/

/-- An entry of the folder is described if its name has the ending. -/
theorem always_describeServer (hblatant : hazard.Blatant) (hbytes : m name = some bytes) :
    (s.describeServer name).run.Leaves hazard w fun r v _ => v = w ∧
      (Name.endsIn Name.serverSuffix name = false ∧ r = .ok none ∨
        (Name.endsIn Name.serverSuffix name = true ∧ ∃ updated,
          r = .ok (some ⟨name, s.servers.child name, bytes.length, updated⟩)) ∨
        ∃ failure, Stumbles hazard failure ∧ r = .error failure) := by
  obtain ⟨mode, changed, hget⟩ := h.file_of_some hbytes
  have hfits := h.fits name (by simp [hget])
  rw [describeServer]
  by_cases hends : Name.endsIn Name.serverSuffix name = true
  · rw [if_pos hends]
    refine always_andThen.mpr ((h.always_leads hblatant hfits fun _ _ _ => rfl).mono ?_)
    rintro r v marks ⟨rfl, rfl | ⟨failure, hstumbles, rfl⟩⟩
    swap
    · exact ⟨rfl, .inr (.inr ⟨failure, hstumbles, rfl⟩)⟩
    rw [hbytes]
    refine always_andThen.mpr (Task.always_ofFile.mpr (FileTask.always_look.mpr
      ⟨?_, fun f hf => ⟨rfl, .inr (.inr ⟨.fault f, .untold hf, rfl⟩)⟩⟩))
    rw [(h.lands hfits).look_file hget]
    exact ⟨rfl, .inr (.inl ⟨hends, _, rfl⟩)⟩
  · rw [if_neg hends]
    exact ⟨rfl, .inl ⟨by simpa using hends, rfl⟩⟩

theorem always_describeServers (hblatant : hazard.Blatant) {names : List String}
    (hnames : ∀ name ∈ names, m name ≠ none) :
    (s.describeServers names).run.Leaves hazard w fun r v _ => v = w ∧ ((∃ entries,
      r = .ok entries ∧
      entries.map (·.name) = names.filter (Name.endsIn Name.serverSuffix) ∧
      ∀ e ∈ entries, e.path = s.servers.child e.name ∧
        ∃ bytes, m e.name = some bytes ∧ e.size = bytes.length) ∨
      ∃ failure, Stumbles hazard failure ∧ r = .error failure) := by
  induction names with
  | nil => exact ⟨rfl, .inl ⟨[], rfl, rfl, by simp⟩⟩
  | cons name names ih =>
    rw [List.forall_mem_cons] at hnames
    obtain ⟨bytes, hbytes⟩ := Option.ne_none_iff_exists'.mp hnames.1
    rw [describeServers]
    refine always_andThen.mpr ((h.always_describeServer hblatant hbytes).mono ?_)
    rintro r v marks ⟨rfl, ⟨hends, rfl⟩ | ⟨hends, updated, rfl⟩ | hstumbles⟩
    · refine (ih hnames.2).mono ?_
      rintro r v marks' ⟨rfl, ⟨entries, rfl, hmap, hall⟩ | hstumbles⟩
      · exact ⟨rfl, .inl ⟨entries, rfl, by rw [hmap, List.filter_cons_of_neg (by simp [hends])], hall⟩⟩
      · exact ⟨rfl, .inr hstumbles⟩
    · refine always_andThen.mpr ((ih hnames.2).mono ?_)
      rintro r v marks' ⟨rfl, ⟨entries, rfl, hmap, hall⟩ | ⟨failure, hstumbles, rfl⟩⟩
      · refine ⟨rfl, .inl ⟨_, rfl, ?_, List.forall_mem_cons.mpr ⟨?_, hall⟩⟩⟩
        · rw [List.map_cons, hmap, List.filter_cons_of_pos hends]
        · exact ⟨rfl, bytes, hbytes, rfl⟩
      · exact ⟨rfl, .inr ⟨failure, hstumbles, rfl⟩⟩
    · obtain ⟨failure, hstumbles, rfl⟩ := hstumbles
      exact ⟨rfl, .inr ⟨failure, hstumbles, rfl⟩⟩

theorem always_list (hblatant : hazard.Blatant) :
    (s.call .listServers).run.Leaves hazard w fun r v _ =>
      s.Refines folder m hazard .listServers r v := by
  have hmem (name : String) : name ∈ w.tree.children folder ↔ m name ≠ none :=
    Tree.mem_children.trans h.vacant_iff.not.symm
  refine always_refining ?_
  rw [listServers]
  refine always_andThen.mpr (Task.always_ofFileOr.mpr (FileTask.always_list.mpr
    ⟨?_, fun f hf => h.stumbles id (.barred (r := .list _) trivial hf)⟩))
  rw [h.flat.list_eq]
  refine (h.always_describeServers hblatant fun name hname => ?_).mono ?_
  · exact (hmem name).mp (List.mem_mergeSort.mp hname)
  rintro r v marks ⟨rfl, ⟨entries, rfl, hmap, hall⟩ | ⟨failure, hstumbles, rfl⟩⟩
  swap
  · exact h.stumbles id hstumbles
  have hname (name : String) : (∃ e ∈ entries, e.name = name) ↔
      m name ≠ none ∧ Name.endsIn Name.serverSuffix name = true := by
    rw [← hmem, ← List.mem_map, hmap, List.mem_filter, List.mem_mergeSort]
  refine h.answers (.lists ?_ (fun e he => ?_) fun name hpresent hends => ?_)
  · rw [← List.pairwise_map (f := ServerEntry.name), hmap]
    exact (ascends_of_nodup (h.distinct.nodup_children folder)).filter _
  · exact ⟨((hname e.name).mp ⟨e, he, rfl⟩).2, hall e he⟩
  · exact (hname name).mpr ⟨hpresent, hends⟩

end Shows

end Site
end ConfigSteward
