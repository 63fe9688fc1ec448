import ConfigSteward.Proofs.Backup.Counting
import ConfigSteward.Proofs.Backup.Listing
import ConfigSteward.Proofs.Save.Hindered
import ConfigSteward.Proofs.Site.ServerFiles
import ConfigSteward.Proofs.World.Endings

/-!
# What a new file that could not be written leaves behind

A backup and a new server file are made at their final place and filled there. If the making fails
there is no file. If the filling fails the file stays with what it got of its content, since nothing
takes it away again: `Begun` is the world then. The main result says in which worlds a refused call
may end: all is as it was, or a file was begun, with a first part of the content of any length.
-/
namespace ConfigSteward

open Plan

variable {w v : World} {p : Path} {bytes : Bytes}

theorem Fault.exists_untimely : ∃ f : Fault, f.Untimely :=
  ⟨⟨.accessDenied, "", none⟩, by decide, by decide⟩

namespace World.Begun

/-- The path lands at a file with the first part now. -/
theorem lands (h : w.Begun p bytes v) : ∃ place k, v.Lands p place ∧
    v.tree.get? place = some (.file (bytes.take k) plainMode .lately) := by
  obtain ⟨place, k, hvacancy, rfl⟩ := h
  have hlands := (vacancy_eq_ok_iff.mp hvacancy).1
  exact ⟨place, k, hlands.at_put _ _ _, hlands.get_put _⟩

theorem vacancy_eq (h : w.Begun p bytes v) : v.vacancy p = fault .alreadyThere p := by
  obtain ⟨place, k, hlands, hfile⟩ := h.lands
  simp [vacancy, hlands.walk, hfile]

theorem tree_ne (h : w.Begun p bytes v) : v.tree ≠ w.tree := by
  obtain ⟨place, k, hvacancy, rfl⟩ := h
  obtain ⟨hlands, hnone⟩ := vacancy_eq_ok_iff.mp hvacancy
  intro htree
  have hfile := hlands.get_put (.file (bytes.take k) plainMode .lately)
  rw [show w.tree.put place _ = w.tree from htree, hnone] at hfile
  cases hfile

end World.Begun

/-! ### New files -/

namespace FileTask

/-- A file is made, or all stays as it was. -/
theorem mayEnd_create {r : Except Fault Unit} :
    (create p).run.MayEnd .any w r v ↔
      (∃ place, w.vacancy p = .ok place ∧ r = .ok () ∧ v = w.withFile place []) ∨
        ∃ f, (f.Untimely ∨ w.vacancy p = .error f) ∧ r = .error f ∧ v = w := by
  refine (mayEnd_request (r := .create p)).trans ⟨?_, ?_⟩
  · rintro (_ | ⟨hf, ⟨⟩⟩ | ⟨-, -, htorn⟩)
    · rcases h : w.vacancy p with f | place
      · exact .inr ⟨f, .inr rfl, by simp [World.perform, World.add, h]⟩
      · exact .inl ⟨place, rfl, by simp [World.perform, World.add, h, World.withFile]⟩
    · exact .inr ⟨_, .inl hf, rfl, rfl⟩
    · exact htorn.elim
  · rintro (⟨place, h, rfl, rfl⟩ | ⟨f, hf | h, rfl, rfl⟩)
    · have hperform : w.perform (.create p) = (.ok (), w.withFile place []) := by
        simp [World.perform, World.add, h, World.withFile]
      have hwell : World.Fares .any w (.create p) _ _ := .well
      rwa [hperform] at hwell
    · exact .ill hf rfl
    · have hperform : v.perform (.create p) = (.error f, v) := by
        simp [World.perform, World.add, h]
      have hwell : World.Fares .any v (.create p) _ _ := .well
      rwa [hperform] at hwell

/-- A file that was just made at a vacant place is filled in full or in part. -/
theorem mayEnd_fill_new {r : Except Fault Unit} {place : Place} (h : w.vacancy p = .ok place) :
    (fill p bytes).run.MayEnd .any (w.withFile place []) r v ↔
      r = .ok () ∧ v = w.withFile place bytes ∨
        ∃ f, f.Untimely ∧ r = .error f ∧ ∃ k, v = w.withFile place (bytes.take k) := by
  have hlands : w.Lands p place := (World.vacancy_eq_ok_iff.mp h).1
  have hfill (content : Bytes) : (w.withFile place []).alter p
      (fun _ mode _ => .file content mode .lately) = (.ok (), w.withFile place content) := by
    have hthere : (w.withFile place []).Lands p place := hlands.at_put _ _ _
    rw [hthere.alter_file (hlands.get_put _)]
    simp only [World.withFile, Tree.put_put]
  have hperform : (w.withFile place []).perform (.fill p bytes)
      = (.ok (), w.withFile place bytes) := hfill bytes
  refine (mayEnd_request (r := .fill p bytes)).trans ⟨?_, ?_⟩
  · rintro (_ | ⟨hf, ⟨⟩⟩ | ⟨hf, ⟨⟩, k, rfl⟩)
    · exact .inl ⟨congrArg Prod.fst hperform, congrArg Prod.snd hperform⟩
    · exact .inr ⟨_, hf, rfl, 0, rfl⟩
    · exact .inr ⟨_, hf, rfl, k, congrArg Prod.snd (hfill _)⟩
  · rintro (⟨rfl, rfl⟩ | ⟨f, hf, rfl, k, rfl⟩)
    · have hwell : World.Fares .any (w.withFile place []) (.fill p bytes) _ _ := .well
      rwa [hperform] at hwell
    · exact .torn hf rfl ⟨k, (congrArg Prod.snd (hfill _)).symm⟩

/-- A new file is filled in full. Or a fault comes before there is a file, or one that does not tell
what is there comes later, when the file was begun. -/
theorem mayEnd_createWith {r : Except Fault Unit} :
    (createWith p bytes).run.MayEnd .any w r v ↔
      (∃ place, w.vacancy p = .ok place ∧ r = .ok () ∧ v = w.withFile place bytes) ∨
        ∃ f, r = .error f ∧
          ((f.Untimely ∨ w.vacancy p = .error f) ∧ v = w ∨ f.Untimely ∧ w.Begun p bytes v) := by
  rw [createWith, mayEnd_andThen]
  constructor
  · rintro (⟨f, hcreate, rfl⟩ | ⟨⟨⟩, u, hcreate, hfill⟩)
    · obtain ⟨-, -, ⟨⟩, -⟩ | ⟨_, hf, ⟨⟩, hv⟩ := mayEnd_create.mp hcreate
      exact .inr ⟨f, rfl, .inl ⟨hf, hv⟩⟩
    · obtain ⟨place, h, -, rfl⟩ | ⟨-, -, ⟨⟩, -⟩ := mayEnd_create.mp hcreate
      obtain ⟨rfl, rfl⟩ | ⟨f, hf, rfl, k, rfl⟩ := (mayEnd_fill_new h).mp hfill
      · exact .inl ⟨place, h, rfl, rfl⟩
      · exact .inr ⟨f, rfl, .inr ⟨hf, place, k, h, rfl⟩⟩
  · have hmake {place : Place} (h : w.vacancy p = .ok place) :
        (create p).run.MayEnd .any w (.ok ()) (w.withFile place []) :=
      mayEnd_create.mpr (.inl ⟨place, h, rfl, rfl⟩)
    rintro (⟨place, h, rfl, rfl⟩ | ⟨f, rfl, ⟨hf, rfl⟩ | ⟨hf, place, k, h, rfl⟩⟩)
    · exact .inr ⟨(), _, hmake h, (mayEnd_fill_new h).mpr (.inl ⟨rfl, rfl⟩)⟩
    · exact .inl ⟨f, mayEnd_create.mpr (.inr ⟨f, hf, rfl, rfl⟩), rfl⟩
    · exact .inr ⟨(), _, hmake h, (mayEnd_fill_new h).mpr (.inr ⟨f, hf, rfl, k, rfl⟩)⟩

end FileTask

/-! ### Backups -/

namespace Store

variable {s : Store} {artifact : String} {reading : Civil} {counter tries : Nat}

theorem mayEnd_nextReading {r : Except Failure Civil} :
    (nextReading artifact).run.MayEnd .any w r v ↔
      r = .ok (w.readingFor artifact) ∧ v = w.noting artifact :=
  mayEnd_iff_of_always ((always_nextReading w artifact).mono fun _ _ _ h => ⟨h.1, h.2.1⟩)

/-- One try: the backup is made, its name is occupied and the next one is tried, or there is a fault
before there is a file or after it was begun. -/
theorem mayEnd_createFrom_succ {r : Except Failure Backup} {name : String}
    (hname : name = Name.writeBackup artifact reading counter) :
    (s.createFrom artifact bytes reading counter (tries + 1)).run.MayEnd .any w r v ↔
      (∃ place, w.vacancy (s.pathOf name) = .ok place ∧
        r = .ok ⟨name, artifact, some reading, bytes.length⟩ ∧ v = w.withFile place bytes) ∨
      (s.Occupied w name ∧
        (s.createFrom artifact bytes reading (counter + 1) tries).run.MayEnd .any w r v) ∨
      ∃ f : Fault, f.cause ≠ .alreadyThere ∧ r = .error (.refused (unwritten name f)) ∧
        ((f.Untimely ∨ w.vacancy (s.pathOf name) = .error f) ∧ v = w ∨
          f.Untimely ∧ w.Begun (s.pathOf name) bytes v) := by
  subst hname
  rw [createFrom, mayEnd_andThen]
  simp only [Task.mayEnd_attemptFile]
  constructor
  · rintro (⟨-, ⟨-, -, ⟨⟩⟩, -⟩ | ⟨result, u, ⟨_, hmade, ⟨⟩⟩, hrest⟩)
    obtain ⟨place, hplace, rfl, rfl⟩ | ⟨f, rfl, htry⟩ := FileTask.mayEnd_createWith.mp hmade
    · obtain ⟨rfl, rfl⟩ := mayEnd_pure.mp hrest
      exact .inl ⟨place, hplace, rfl, rfl⟩
    · by_cases hf : f.cause = .alreadyThere
      · have hcalm : ¬ f.Untimely := fun h => h.2 hf
        obtain ⟨hfault | hfault, rfl⟩ | ⟨h, -⟩ := htry
        · exact absurd hfault hcalm
        · simp only [hf, if_true] at hrest
          obtain ⟨cause, a, other⟩ := f
          cases hf
          exact .inr (.inl ⟨World.taken_of_vacancy hfault, hrest⟩)
        · exact absurd h hcalm
      · simp only [hf, if_false] at hrest
        obtain ⟨rfl, rfl⟩ := mayEnd_throw.mp hrest
        exact .inr (.inr ⟨f, hf, rfl, htry⟩)
  · rintro (⟨place, hplace, rfl, rfl⟩ | ⟨⟨place, hwalk, hthere⟩, hrest⟩ | ⟨f, hf, rfl, htry⟩)
    · exact .inr ⟨.ok (), _,
        ⟨_, FileTask.mayEnd_createWith.mpr (.inl ⟨place, hplace, rfl, rfl⟩), rfl⟩, rfl, rfl⟩
    · have hfault := World.vacancy_of_taken hwalk hthere
      exact .inr ⟨.error _, w,
        ⟨_, FileTask.mayEnd_createWith.mpr (.inr ⟨_, rfl, .inl ⟨.inr hfault, rfl⟩⟩), rfl⟩, hrest⟩
    · have hmade := FileTask.mayEnd_createWith.mpr (.inr ⟨f, rfl, htry⟩)
      refine .inr ⟨.error f, v, ⟨_, hmade, rfl⟩, ?_⟩
      simp only [hf, if_false]
      exact ⟨rfl, rfl⟩

theorem mayEnd_createFrom :
    (∃ text, (s.createFrom artifact bytes reading counter tries).run.MayEnd .any w
        (.error (.refused (.backup text))) v) ↔
      v = w ∨ s.Begins w artifact reading bytes counter tries v := by
  induction tries generalizing counter with
  | zero =>
    constructor
    · rintro ⟨text, -, rfl⟩
      exact .inl rfl
    · rintro (rfl | ⟨k, hle, hlt, -⟩)
      · exact ⟨_, rfl, rfl⟩
      · omega
  | succ tries ih =>
    simp only [mayEnd_createFrom_succ rfl]
    constructor
    · rintro ⟨text, ⟨-, -, ⟨⟩, -⟩ | ⟨hfirst, hrest⟩ | ⟨f, hf, -, ⟨-, rfl⟩ | ⟨-, hbegun⟩⟩⟩
      · obtain rfl | ⟨k, hle, hlt, hoccupied, hbegun⟩ := ih.mp ⟨text, hrest⟩
        · exact .inl rfl
        · exact .inr ⟨k, by omega, by omega, hoccupied.cons hfirst, hbegun⟩
      · exact .inl rfl
      · exact .inr ⟨counter, le_rfl, by omega, .empty, hbegun⟩
    · obtain ⟨f, hill⟩ := Fault.exists_untimely
      rintro (rfl | ⟨k, hle, hlt, hoccupied, hbegun⟩)
      · exact ⟨_, .inr (.inr ⟨f, hill.2, rfl, .inl ⟨.inl hill, rfl⟩⟩)⟩
      · rcases Nat.eq_or_lt_of_le hle with rfl | hlater
        · exact ⟨_, .inr (.inr ⟨f, hill.2, rfl, .inr ⟨hill, hbegun⟩⟩)⟩
        · obtain ⟨text, hrest⟩ := ih.mpr (.inr ⟨k, hlater, by omega,
            fun j hj => hoccupied j (by omega), hbegun⟩)
          exact ⟨text, .inr (.inl ⟨hoccupied counter le_rfl hlater, hrest⟩)⟩

/-- Where a refused attempt to make a backup may end: with the files as they were, or with one begun
under the first free name. -/
theorem mayEnd_create_refused :
    (∃ text, (s.create artifact bytes).run.MayEnd .any w (.error (.refused (.backup text))) v) ↔
      Name.isSafe artifact = true ∧ (v = w.noting artifact ∨
        s.Begins (w.noting artifact) artifact (w.readingFor artifact) bytes 0
          (lastCounter + 1) v) := by
  rw [create]
  by_cases hsafe : Name.isSafe artifact = true
  · rw [if_pos hsafe, and_iff_right hsafe, ← mayEnd_createFrom]
    exact exists_congr fun text => mayEnd_andThen_ok fun _ _ => mayEnd_nextReading
  · rw [if_neg hsafe]
    constructor
    · rintro ⟨text, hend, -⟩
      cases hend
    · exact fun h => absurd h.1 hsafe

end Store

/-! ### Server files -/

namespace Site

theorem mayEnd_serverPathTask (s : Site) (w : World) (name : Option String)
    (r : Except Failure Path) (v : World) : (s.serverPathTask name).run.MayEnd .any w r v ↔
      r = (s.serverPath name).mapError Failure.refused ∧ v = w := by
  unfold serverPathTask
  rcases s.serverPath name with refusal | p
  · exact mayEnd_throw
  · exact mayEnd_pure

variable {s : Site} {name : Option String} {content : Option RawText}

/-- A fault comes before there is a file, or one that does not tell what is there comes later, when
the file was begun. Nothing comes later for a text that cannot be encoded. -/
theorem mayEnd_writeNew_error {text : RawText} {f : Fault} :
    (writeNew p text).run.MayEnd .any w (.error f) v ↔
      (f.Untimely ∨ w.vacancy p = .error f) ∧ v = w ∨
        f.Untimely ∧ ∃ bytes, text.encode = .ok bytes ∧ w.Begun p bytes v := by
  cases text with
  | whole text =>
    rw [writeNew, FileTask.mayEnd_createWith]
    simp
  | broken text =>
    rw [writeNew, FileTask.mayEnd_create]
    simp

/-- A new server file is made as any new file is, unless a link leads back to itself. -/
theorem mayEnd_createServer {r : Except Failure Path} (hp : s.serverPath name = .ok p) :
    (s.createServer name content).run.MayEnd .any w r v ↔
      (∃ place, w.tree.resolve w.here p = .error place ∧ r = .error (.linkLoop place) ∧ v = w) ∨
        ∃ place, w.tree.resolve w.here p = .ok place ∧ ∃ result,
          (writeNew p (newContent content)).run.MayEnd .any w result v ∧
          r = (result.mapError fun f => .refused (uncreated p f)).bind fun _ =>
            creation p (newContent content) := by
  have htask := mayEnd_serverPathTask s w name
  rw [hp] at htask
  rw [createServer, mayEnd_andThen_ok htask, Lock.mayEnd_hold]
  refine or_congr_right (exists_congr fun place => and_congr_right fun _ => ?_)
  rw [mayEnd_andThen]
  simp only [Task.mayEnd_attemptFile]
  constructor
  · rintro (⟨-, ⟨-, -, ⟨⟩⟩, -⟩ | ⟨result, u, ⟨_, hwrite, ⟨⟩⟩, hrest⟩)
    refine ⟨result, ?_⟩
    rcases result with f | ⟨⟩
    · simp only [Except.mapError, Except.bind, uncreated]
      by_cases hf : f.cause = .alreadyThere
      · simp only [hf, if_true] at hrest ⊢
        exact ⟨hrest.2 ▸ hwrite, hrest.1⟩
      · simp only [hf, if_false] at hrest ⊢
        exact ⟨hrest.2 ▸ hwrite, hrest.1⟩
    · cases hcontent : newContent content with
      | whole text =>
        rw [hcontent] at hwrite hrest
        obtain ⟨hr, rfl⟩ := mayEnd_pure.mp hrest
        exact ⟨hwrite, hr⟩
      | broken text =>
        rw [hcontent] at hwrite hrest
        obtain ⟨hr, rfl⟩ := mayEnd_throw.mp hrest
        exact ⟨hwrite, hr⟩
  · rintro ⟨result, hwrite, rfl⟩
    refine .inr ⟨result, v, ⟨result, hwrite, rfl⟩, ?_⟩
    rcases result with f | ⟨⟩
    · simp only [Except.mapError, Except.bind, uncreated]
      by_cases hf : f.cause = .alreadyThere
      · simp only [hf, if_true]
        exact ⟨rfl, rfl⟩
      · simp only [hf, if_false]
        exact ⟨rfl, rfl⟩
    · cases newContent content with
      | whole text => exact mayEnd_pure.mpr ⟨rfl, rfl⟩
      | broken text => exact mayEnd_throw.mpr ⟨rfl, rfl⟩

/-- Where a refused attempt to make a server file may end, if its name is right: with the files as
they were, or with the file begun. -/
theorem mayEnd_createServer_refused :
    (∃ text, (s.createServer name content).run.MayEnd .any w
        (.error (.refused (.fileAccess text))) v) ↔
      ∃ p place, s.serverPath name = .ok p ∧ w.tree.resolve w.here p = .ok place ∧
        (v = w ∨ ∃ bytes, (newContent content).encode = .ok bytes ∧ w.Begun p bytes v) := by
  constructor
  · rintro ⟨text, hend⟩
    rcases hp : s.serverPath name with refusal | p
    · have htask := mayEnd_serverPathTask s w name
      rw [hp] at htask
      obtain ⟨hrefusal, -⟩ := (mayEnd_andThen_error htask).mp hend
      cases hrefusal
      cases refusal_of_serverPath hp
    · obtain ⟨_, _, ⟨⟩, _⟩ | ⟨place, hplace, result, hwrite, hresult⟩ :=
        (mayEnd_createServer hp).mp hend
      rcases result with f | ⟨⟩
      · exact ⟨p, place, rfl, hplace, (mayEnd_writeNew_error.mp hwrite).imp And.right And.right⟩
      · cases hcontent : newContent content <;> rw [hcontent] at hresult <;> cases hresult
  · rintro ⟨p, place, hp, hplace, hv⟩
    obtain ⟨f, hill⟩ := Fault.exists_untimely
    have hwrite : (writeNew p (newContent content)).run.MayEnd .any w (.error f) v :=
      mayEnd_writeNew_error.mpr (hv.imp (⟨.inl hill, ·⟩) (⟨hill, ·⟩))
    have huncreated : uncreated p f = .fileAccess s!"Error creating {p.name}: {f.message}" :=
      if_neg hill.2
    exact ⟨_, (mayEnd_createServer hp).mpr (.inr ⟨place, hplace, .error f, hwrite,
      congrArg (fun refusal => Except.error (Failure.refused refusal)) huncreated.symm⟩)⟩

/-- A file that was begun keeps its name from being given to a new server file. -/
theorem createServer_begun (hp : s.serverPath name = .ok p) (h : w.Begun p bytes v) :
    (s.createServer name content).run.run v = (.error (.refused ⟨.alreadyExists,
      some "file already exists", [("name", .text p.name)]⟩), v) := by
  obtain ⟨place, k, hlands, -⟩ := h.lands
  have hresolve : v.tree.resolve v.here p = .ok place :=
    Tree.resolve_of_leads (Tree.walk_eq_ok_iff.mp hlands.followed).2
  obtain ⟨failure, hr, hu, huncreated⟩ | ⟨q, goal, hq, hgoal, -⟩ :=
    (s.does_createServer_ends v name content).ends
  · cases huncreated with
    | misnamed goes => cases goes.symm.trans hp
    | looped goes loop =>
      obtain rfl := Except.ok.inj (goes.symm.trans hp)
      cases loop.symm.trans hresolve
    | taken goes fault =>
      obtain rfl := Except.ok.inj (goes.symm.trans hp)
      obtain rfl := Except.error.inj (fault.symm.trans h.vacancy_eq)
      exact Prod.ext hr hu
  · obtain rfl := Except.ok.inj (hp.symm.trans hq)
    cases hgoal.symm.trans h.vacancy_eq

/-- However the file calls fare, if no file could be made all is as it was. Where a backup or a new
server file is refused since it could not be written, either the files are as they were or the file
was begun, at its final place, with a first part of its content of any length. All of these ends may
come about. -/
theorem failed_creates_begin_at_most (s : Site) (w v : World) :
    (∀ p f, (FileTask.create p).run.MayEnd .any w (.error f) v → v = w) ∧
    (∀ artifact bytes,
      (∃ text, (s.store.create artifact bytes).run.MayEnd .any w (.error (.refused (.backup text))) v) ↔
        Name.isSafe artifact = true ∧ (v = w.noting artifact ∨
          s.store.Begins (w.noting artifact) artifact (w.readingFor artifact) bytes 0
            (Store.lastCounter + 1) v)) ∧
    ∀ name content,
      (∃ text, (s.createServer name content).run.MayEnd .any w
          (.error (.refused (.fileAccess text))) v) ↔
        ∃ p place, s.serverPath name = .ok p ∧ w.tree.resolve w.here p = .ok place ∧
          (v = w ∨ ∃ bytes, (newContent content).encode = .ok bytes ∧ w.Begun p bytes v) := by
  refine ⟨fun p f hend => ?_, fun artifact bytes => Store.mayEnd_create_refused,
    fun name content => mayEnd_createServer_refused⟩
  obtain ⟨-, -, ⟨⟩, -⟩ | ⟨-, -, -, hv⟩ := FileTask.mayEnd_create.mp hend
  exact hv

/-- A folder for server files and one for backups, both empty. -/
def unstocked : World :=
  { Store.emptyAt ["b"] with tree := ⟨[(["b"], .folder), (["s"], .folder)]⟩, clock := World.noon }

def unstockedSite : Site := ⟨⟨.one, ["n"]⟩, ⟨.one, ["s"]⟩, ⟨["b"]⟩, {}⟩

theorem serverPath_unstocked :
    unstockedSite.serverPath (some "x") = .ok ⟨.one, ["s", "x.conf"]⟩ := rfl

theorem resolve_unstocked :
    unstocked.tree.resolve unstocked.here ⟨.one, ["s", "x.conf"]⟩ = .ok ["s", "x.conf"] := by cbv

/-- The server file was begun. -/
def halfway : World := unstocked.withFile ["s", "x.conf"] [97]

theorem read_halfway : (unstockedSite.readServer (some "x")).run.run halfway
    = (.ok ⟨"x.conf", "a", ⟨.one, ["s", "x.conf"]⟩⟩, halfway) := by
  simp only [readServer, serverPathTask, serverPath_unstocked]
  cbv

theorem begun_halfway : unstocked.Begun ⟨.one, ["s", "x.conf"]⟩ [97, 98] halfway :=
  ⟨["s", "x.conf"], 1, by cbv, rfl⟩

theorem failed_creates_begin_at_most_halfway :
    (∃ text, (unstockedSite.createServer (some "x") (some "ab")).run.MayEnd .any unstocked
      (.error (.refused (.fileAccess text))) unstocked) ∧
    ∃ text, (unstockedSite.createServer (some "x") (some "ab")).run.MayEnd .any unstocked
      (.error (.refused (.fileAccess text))) halfway := by
  exact ⟨((failed_creates_begin_at_most unstockedSite unstocked unstocked).2.2 _ _).mpr
      ⟨_, _, serverPath_unstocked, resolve_unstocked, .inl rfl⟩,
    ((failed_creates_begin_at_most unstockedSite unstocked halfway).2.2 _ _).mpr
      ⟨_, _, serverPath_unstocked, resolve_unstocked, .inr ⟨_, rfl, begun_halfway⟩⟩⟩

end Site
end ConfigSteward
