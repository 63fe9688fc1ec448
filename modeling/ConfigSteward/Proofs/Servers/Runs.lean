import ConfigSteward.Proofs.Backup.Runs
import ConfigSteward.Proofs.Servers.Refining
import ConfigSteward.Proofs.Site.ServerFiles

/-!
# Runs of calls on server files

Over runs of any length the calls on server files do to their folder what they do to the map of its
contents, whatever the programs answer.
-/
namespace ConfigSteward

open Plan

namespace Site

variable {s : Site} {hazard : Hazard} {perils : Calls.Perils} {w u v : World} {folder place : Place}
  {m : Contents} {st : Step} {steps : List Step} {r : Except Failure Answer} {given : Option String}
  {content : Option RawText} {file name : String}

/-- The calls on server files other than restoring one. -/
def Call.OnServers : Call → Prop
  | listServers | readServer _ | saveServer _ _ | createServer _ _ | renameServer _ _
  | deleteServer _ => True
  | _ => False

/-- A call on server files with programs that touch no file. The names that are given leave room for
the path of a file. -/
structure Fair (s : Site) (st : Step) : Prop where
  quiet : ∀ ran args tree, (st.programs ran args tree).2 = tree
  onServers : st.call.OnServers
  roomy : ∀ name ∈ st.call.given, s.Roomy name

/-- What goes wrong strikes nothing after the check of a save and no removal of a temporary file, and
no fault is taken for the answer that a path leads nowhere. -/
structure Bearable (w : World) (hazard : Hazard) : Prop where
  blatant : hazard.Blatant
  ceases : hazard.CeasesAfter w.ran.length
  tidy : hazard.Tidy

private theorem bearable_none (w : World) : Bearable w .none :=
  ⟨Hazard.blatant_none, fun h => h.elim, fun _ _ _ _ _ => ⟨id, id⟩⟩

/-- A step on server files refines a step of their contents. -/
theorem Shows.step (h : s.Shows folder m w) (hst : s.Fair st)
    (hbearable : Bearable (st.meets w) hazard)
    (hend : (s.call st.call).run.MayEnd hazard (st.meets w) r v) :
    s.Refines folder m hazard st.call r v := by
  have hmeets := h.of_alike (st.meets_alike w)
  have hroomy := hst.roomy
  have honServers := hst.onServers
  suffices hleaves : (s.call st.call).run.Leaves hazard (st.meets w) fun r v _ =>
      s.Refines folder m hazard st.call r v from always_iff.mp hleaves r v hend
  cases hcall : st.call with
  | listServers => exact hmeets.always_list hbearable.blatant
  | readServer name =>
    rw [hcall] at hroomy
    exact hmeets.always_read (hroomy name List.mem_cons_self)
  | saveServer name content =>
    rw [hcall] at hroomy
    exact hmeets.always_save hst.quiet hbearable.blatant hbearable.ceases hbearable.tidy
      (hroomy name List.mem_cons_self) content
  | createServer name content =>
    rw [hcall] at hroomy
    exact hmeets.always_create (hroomy name List.mem_cons_self)
  | renameServer old new =>
    rw [hcall] at hroomy
    exact hmeets.always_rename hbearable.blatant (hroomy old List.mem_cons_self)
      (hroomy new (List.mem_cons_of_mem old List.mem_cons_self))
  | deleteServer name =>
    rw [hcall] at hroomy
    exact hmeets.always_delete hbearable.blatant (hroomy name List.mem_cons_self)
  | _ =>
    rw [hcall] at honServers
    exact honServers.elim

theorem Serves.shows (h : s.Serves w folder) : s.Shows folder (w.tree.contents folder) w := ⟨h, rfl⟩

/-- At every step of a run the calls on server files answer as the map of their contents, and change
the files as the map changes, but for the ends that `Contents.Bears` lists. -/
theorem refines_contents (h : s.Serves w folder)
    (hperils : ∀ w hazard, perils w hazard → Bearable w hazard)
    (hsteps : ∀ st' ∈ steps ++ [st], s.Fair st') (hreach : s.calls.MayReach perils w steps u)
    (hanswer : s.calls.MayAnswer perils u st r v) :
    ∃ hazard, perils (st.meets u) hazard ∧
      (u.tree.contents folder).Bears s hazard st.call r (v.tree.contents folder) := by
  have hserves : s.Serves u folder := by
    refine hreach.invariant (I := (s.Serves · folder)) h fun x y a hx st' hst' ⟨hazard, hhazard, hend⟩ => ?_
    have hfair := hsteps st' (List.mem_append_left _ hst')
    obtain ⟨m, -, hshows⟩ := hx.shows.step hfair (hperils _ _ hhazard) hend
    exact hshows.toServes
  obtain ⟨hazard, hhazard, hend⟩ := hanswer
  have hfair := hsteps st (by simp)
  obtain ⟨m, hbears, hshows⟩ := hserves.shows.step hfair (hperils _ _ hhazard) hend
  exact ⟨hazard, hhazard, hshows.holds ▸ hbears⟩

/-! ### An empty folder of servers -/

private theorem serves_emptyAt (hservers : s.servers = place.path) (hstore : s.store.folder = [name])
    (hname : Tree.Plain name) (hapart : name ∉ place) (hplain : ∀ name ∈ place, Tree.Plain name)
    (hroom : place.path.text.utf8ByteSize ≤ longestPath) : s.Serves (Store.emptyAt place) place := by
  refine ⟨⟨Tree.spine_sound place, Tree.get?_nil _⟩, Tree.spine_distinct place,
    hservers ▸ World.flat_spine rfl hplain hroom, fun q hwalk => ?_, fun file hfile => ?_⟩
  · have hvacant : (Tree.spine place).get? [name] = none := by
      by_contra hthere
      obtain ⟨node, hget⟩ := Option.ne_none_iff_exists'.mp hthere
      exact hapart ((Tree.get?_spine_iff.mp hget).1.subset List.mem_cons_self)
    obtain ⟨-, hleads⟩ := Tree.walk_eq_ok_iff.mp hwalk
    rw [hstore] at hleads
    have hq : q = [name] := hleads.unique (.leaf hname (Tree.skeleton_of_vacant hvacant))
    rintro rfl
    exact hapart (hq ▸ List.mem_singleton_self name)
  · exact absurd (Tree.spine_empty place file) hfile

/-- A site with its server files in one folder and its backups in another one. -/
def roadside : Site := ⟨⟨.one, ["n"]⟩, ⟨.one, ["s"]⟩, ⟨["b"]⟩, {}⟩

/-- A call at noon with programs that answer nothing. -/
def atNoon (c : Call) : Step := ⟨World.noon, .replying (.error .noFileNamed), c⟩

def opened : Step := atNoon (.createServer (some "a") (some "x"))

def moved : Step := atNoon (.renameServer (some "a") (some "b"))

/-- A server file that was made goes by another name. -/
theorem refines_contents_moved :
    roadside.Serves (Store.emptyAt ["s"]) ["s"] ∧
      (∀ st ∈ [opened] ++ [moved], roadside.Fair st) ∧
      roadside.calls.reply (roadside.calls.after (Store.emptyAt ["s"]) [opened]) moved
        = .ok (.renamed "a.conf" "b.conf") ∧
      ∀ name, (roadside.calls.after (Store.emptyAt ["s"]) ([opened] ++ [moved])).tree.contents ["s"] name
        = if name = "b.conf" then some (Text.encodeString "x") else none := by
  have hserves : roadside.Serves (Store.emptyAt ["s"]) ["s"] := by
    refine serves_emptyAt rfl rfl ⟨by decide, by decide⟩ (by decide) (fun name hname => ?_)
      (by decide)
    rw [List.mem_singleton.mp hname]
    exact ⟨by decide, by decide⟩
  have hmeans_a : roadside.Means (some "a") "a.conf" := ⟨rfl, by decide⟩
  have hmeans_b : roadside.Means (some "b") "b.conf" := ⟨rfl, by decide⟩
  have hroomy_a : roadside.Roomy (some "a") := fun file hmeans =>
    hmeans_a.unique hmeans ▸ ⟨⟨by decide, by decide⟩, by decide⟩
  have hroomy_b : roadside.Roomy (some "b") := fun file hmeans =>
    hmeans_b.unique hmeans ▸ ⟨⟨by decide, by decide⟩, by decide⟩
  have hopened : roadside.Fair opened :=
    ⟨fun _ _ _ => rfl, trivial, by simpa [opened, atNoon, Call.given] using hroomy_a⟩
  have hmoved : roadside.Fair moved :=
    ⟨fun _ _ _ => rfl, trivial, by simpa [moved, atNoon, Call.given] using ⟨hroomy_a, hroomy_b⟩⟩
  have hfair : ∀ st ∈ [opened] ++ [moved], roadside.Fair st := by simpa using ⟨hopened, hmoved⟩
  have hempty (name : String) : (Store.emptyAt ["s"]).tree.contents ["s"] name = none :=
    hserves.shows.vacant_iff.mpr (Tree.spine_empty ["s"] name)
  let calm : Calls.Perils := fun _ hazard => hazard = .none
  have hcalm : ∀ w, ∃ hazard, calm w hazard := fun _ => ⟨_, rfl⟩
  have hbearable : ∀ w hazard, calm w hazard → Bearable w hazard :=
    fun w _ hhazard => hhazard ▸ bearable_none w
  -- The file is made in an empty folder, so it is there to be renamed.
  have hfirst : ((Store.emptyAt ["s"]).tree.contents ["s"]).Answers roadside opened.call
      (roadside.calls.reply (Store.emptyAt ["s"]) opened)
      ((roadside.calls.after (Store.emptyAt ["s"]) [opened]).tree.contents ["s"]) := by
    have hstart : roadside.calls.MayReach calm (Store.emptyAt ["s"]) [] (Store.emptyAt ["s"]) := .start
    obtain ⟨_, rfl, hbears⟩ := refines_contents hserves hbearable (by simpa using hopened) hstart
      (Calls.mayAnswer_reply hcalm _ opened)
    refine hbears.answers_of_none fun name content hcall => ?_
    cases hcall
    exact ⟨_, rfl⟩
  have hsecond : ((roadside.calls.after (Store.emptyAt ["s"]) [opened]).tree.contents ["s"]).Answers
      roadside moved.call (roadside.calls.reply (roadside.calls.after (Store.emptyAt ["s"]) [opened]) moved)
      ((roadside.calls.after (Store.emptyAt ["s"]) ([opened] ++ [moved])).tree.contents ["s"]) := by
    obtain ⟨_, rfl, hbears⟩ := refines_contents hserves hbearable hfair
      (Calls.mayReach_after hcalm (Store.emptyAt ["s"]) [opened])
      (Calls.mayAnswer_reply hcalm _ moved)
    rw [Calls.after_concat]
    refine hbears.answers_of_none fun name content hcall => ?_
    cases hcall
  obtain ⟨-, hmade⟩ := hfirst.created hmeans_a rfl (hempty "a.conf")
  obtain ⟨hreply, hleft⟩ := hsecond.renamed hmeans_a hmeans_b (by rw [hmade, Function.update_self])
    (by rw [hmade, Function.update_of_ne (by decide)]; exact hempty "b.conf")
  refine ⟨hserves, hfair, hreply, fun name => ?_⟩
  rw [hleft, hmade, Function.update_idem]
  by_cases hb : name = "b.conf"
  · rw [if_pos hb, hb, Function.update_self]
  · rw [if_neg hb, Function.update_of_ne hb]
    by_cases ha : name = "a.conf"
    · rw [ha, Function.update_self]
    · rw [Function.update_of_ne ha]
      exact hempty name

/-- Where the path of a server file is too long, it cannot be made. -/
theorem Shows.does_create_far (h : s.Shows folder m w) (hmeans : s.Means given file)
    (hplain : Tree.Plain file) (hfar : longestPath < (s.servers.child file).text.utf8ByteSize) :
    (s.call (.createServer given content)).run.Does (fun _ => True) w fun r _ _ =>
      ∃ refusal, r = .error (.refused refusal) ∧ refusal.kind = .fileAccess := by
  have hpath := hmeans.serverPath_eq
  have hvacancy : w.vacancy (s.servers.child file) = World.fault .nameTooLong (s.servers.child file) := by
    rw [World.vacancy, Tree.walk, if_pos hfar]
  refine (does_answer (s.does_createServer_ends w given content)).mono (fun _ _ => trivial) ?_
  rintro r v es ⟨r', rfl, ⟨failure, rfl, -, huncreated⟩ | ⟨p, place, hp, hvacant, -⟩⟩
  · cases huncreated with
    | misnamed goes => cases goes.symm.trans hpath
    | looped goes loop =>
      obtain rfl := Except.ok.inj (goes.symm.trans hpath)
      cases loop.symm.trans (h.resolves hplain)
    | taken goes fault =>
      obtain rfl := Except.ok.inj (goes.symm.trans hpath)
      cases hvacancy.symm.trans fault
      exact ⟨_, rfl, rfl⟩
  · obtain rfl := Except.ok.inj (hp.symm.trans hpath)
    rw [hvacancy] at hvacant
    cases hvacant

/-- A site whose folder of servers has a path of 4095 bytes. -/
def outpost : Site := ⟨⟨.one, ["n"]⟩, Place.path (List.replicate 21 Store.farName), ⟨["b"]⟩, {}⟩

/-- In a folder at the end of the longest path no server file can be made. -/
theorem creating_fails_far :
    let folder := List.replicate 21 Store.farName
    let made := atNoon (.createServer (some "a") none)
    outpost.Serves (Store.emptyAt folder) folder ∧ outpost.Means (some "a") "a.conf" ∧
      (Store.emptyAt folder).tree.contents folder "a.conf" = none ∧
      ∃ refusal, outpost.calls.reply (Store.emptyAt folder) made = .error (.refused refusal) ∧
        refusal.kind = .fileAccess := by
  intro folder made
  have hplain : ∀ name ∈ folder, Tree.Plain name := fun name hname =>
    List.eq_of_mem_replicate hname ▸ Store.plain_farName
  have hapart : "b" ∉ folder := fun hb => by
    have hsize := Store.utf8ByteSize_farName
    rw [← List.eq_of_mem_replicate hb] at hsize
    exact absurd hsize (by decide)
  have hsize := Place.text_path_replicate 21 Store.farName [] (by simp)
  have hsize' := Place.text_path_replicate 21 Store.farName ["a.conf"] (by simp)
  rw [Store.utf8ByteSize_farName] at hsize hsize'
  rw [List.append_nil] at hsize
  have hserves : outpost.Serves (Store.emptyAt folder) folder :=
    serves_emptyAt rfl rfl ⟨by decide, by decide⟩ hapart hplain (Nat.le_of_eq hsize)
  have hmeans : outpost.Means (some "a") "a.conf" := ⟨rfl, by decide⟩
  have hvacant : (Store.emptyAt folder).tree.contents folder "a.conf" = none := by
    rw [hserves.shows.vacant_iff]
    exact Tree.spine_empty folder "a.conf"
  have hfar : longestPath < (outpost.servers.child "a.conf").text.utf8ByteSize := hsize' ▸ (by decide)
  have hmeets := hserves.shows.of_alike (made.meets_alike (Store.emptyAt folder))
  exact ⟨hserves, hmeans, hvacant,
    (hmeets.does_create_far hmeans ⟨by decide, by decide⟩ hfar).ends⟩

end Site
end ConfigSteward
