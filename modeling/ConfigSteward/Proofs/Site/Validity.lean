import Mathlib
import ConfigSteward.Proofs.Save.Observing
import ConfigSteward.Proofs.Site.Braving
import ConfigSteward.Proofs.World.Noon

/-!
# Valid trees stay valid

A checker that looks at nothing but the primary configuration and the server files accepts the tree
after every save if it accepted the tree before: a save that it turns down leaves what it sees as it
was, and so do backups. Calls to the files may fail on the way, as long as what a save puts back after
the check gets written.
-/
namespace ConfigSteward

open Plan

namespace Site

variable {s : Site} {w v : World} {st : Step} {steps : List Step} {here : Place} {o : Outcome}
  {r : Except Failure Answer}

/-- What a checker sees: the primary configuration and the server files by name. -/
@[ext] structure View where
  config : Option Bytes
  servers : String → Option Bytes

def view (s : Site) (w : World) : View where
  config := w.held s.config
  servers name :=
    if Name.endsIn Name.serverSuffix name then w.held (s.servers.child name) else none

variable {accepts : View → Bool}

/-- The programs touch no file, and a check answers as `accepts` says of what it sees. -/
structure Step.Checks (st : Step) (s : Site) (here : Place) (accepts : View → Bool) : Prop where
  quiet : ∀ ran args tree, (st.programs ran args tree).2 = tree
  answers : ∀ (v : World) (file : Option String), v.here = here → v.programs = st.programs →
    (CommandResult.seen (v.replyTo (s.controller.validateArgs file))).exitOk = accepts (s.view v)

/-- The call is none of those that change files without a check that may undo them. -/
def Call.Spares : Call → Prop
  | .createServer .. | .renameServer .. | .deleteServer .. | .restoreBackup .. => False
  | _ => True

/-- Any call to the files may fail until a program has run. A temporary file that cannot be taken away
is no primary configuration that was missing. -/
def beforeCheck (s : Site) : Calls.Perils := fun w hazard =>
  hazard.Blatant ∧ hazard.CeasesAfter w.ran.length ∧
    (hazard.Tidy ∨ ∀ r base n, s.config.placeFrom w.here = r ++ [World.tempName base n] →
      w.tree.get? (s.config.placeFrom w.here) ≠ none)

/-- The new content of a save is to stay. -/
def Kept (o : Outcome) : Prop :=
  o.success = true ∨ o.error = some .reloadFailed ∨ o.error = some .timeout ∧ o.validated = true

/-- The site stands in the world, making folders brings up none of its files, and what it looks like
is accepted. -/
structure Valid (s : Site) (accepts : View → Bool) (w : World) : Prop where
  sited : s.Sited w
  config : w.Firm s.config
  servers : ".." ∉ s.servers.parts ∨ w.Stands s.servers
  accepted : accepts (s.view w) = true

private theorem view_alike (h : w.Alike v) : s.view v = s.view w := by
  simp only [view, World.held, h.read_eq]

theorem Valid.firm_server (h : s.Valid accepts w) {name : String} (hname : name ≠ "..") :
    w.Firm (s.servers.child name) := by
  rcases h.servers with hup | hstands
  · refine .inl fun hmem => ?_
    rcases List.mem_append.mp hmem with hmem | hmem
    · exact hup hmem
    · exact hname (List.mem_singleton.mp hmem).symm
  · exact .inr (by rwa [Path.parent_child])

theorem Valid.firm (h : s.Valid accepts w) {p : Path} (hp : s.Managed p) : w.Firm p := by
  cases hp with
  | config => exact h.config
  | server ends => exact h.firm_server (ne_up_of_server ends)

/-- Where the files that the site looks after hold what they held, a checker sees the same. -/
theorem Valid.view_eq (h : s.Valid accepts w) (hv : v.Regular) (hbelow : w.tree.Below v.tree)
    (hhere : v.here = w.here) (hbytes : ∀ p, s.Managed p →
      v.tree.bytesAt (p.placeFrom w.here) = w.tree.bytesAt (p.placeFrom w.here)) :
    s.view v = s.view w := by
  have hheld {p : Path} (hp : s.Managed p) : v.held p = w.held p :=
    h.sited.regular.held_congr hv hbelow hhere (h.firm hp) (hbytes p hp)
  refine View.ext (hheld .config) (funext fun name => ?_)
  simp only [view]
  split
  · next hends => exact hheld (.server hends)
  · rfl

theorem Valid.of_alike (h : s.Valid accepts w) (hv : w.Alike v) : s.Valid accepts v := by
  have hbelow : w.tree.Below v.tree := .of_get fun q => by rw [hv.1]
  refine ⟨h.sited.of_alike hv, h.config.mono hbelow hv.2, ?_, view_alike hv ▸ h.accepted⟩
  exact h.servers.imp_right fun hstands => hstands.mono hbelow hv.2

theorem Valid.of_alters {touched : Place → Prop} (h : s.Valid accepts w) (hv : s.Sited v)
    (halters : w.Alters v touched) (haccepts : accepts (s.view v) = true) : s.Valid accepts v :=
  ⟨hv, h.config.mono halters.below halters.here,
    h.servers.imp_right fun hstands => hstands.mono halters.below halters.here, haccepts⟩

/-- New and missing backups are not seen. -/
theorem Valid.of_backups {touched : Place → Prop} (h : s.Valid accepts w) (hv : s.Sited v)
    (halters : w.Alters v touched) (howned : ∀ q, touched q → s.store.Owns q) :
    s.Valid accepts v := by
  refine h.of_alters hv halters ?_
  rw [h.view_eq hv.regular halters.below halters.here fun p hp =>
    halters.bytesAt fun htouched => h.sited.not_owned hp (howned _ htouched)]
  exact h.accepted

/-- A temporary file that stays is none of the files that the site looks after. -/
theorem not_littered {hazard : Hazard} {save : Save} (hperils : s.beforeCheck w hazard) {p : Path}
    (hp : s.Managed p) : ¬ (¬ hazard.Tidy ∧ save.Litters w (p.placeFrom w.here)) := by
  rintro ⟨untidy, hnew, r, n, htemp⟩
  cases hp with
  | config => exact (hperils.2.2.resolve_left untidy) r _ n htemp hnew
  | server hends =>
    rw [Path.placeFrom_child _ _ (ne_up_of_server hends)] at htemp
    have hname := List.singleton_inj.mp (List.append_inj_right' htemp rfl)
    exact Save.not_telling_tempName _ n (.inl (hname ▸ hends))

private theorem not_kept_of_failsEarly (h : Save.FailsEarly o) : ¬ Kept o := by
  rcases h with h | h | h | ⟨h, hvalidated⟩ <;> simp [Kept, Outcome.success, *]

private theorem checkArgs_eq (save : Save) (c : Controller) :
    ∃ file, save.checkArgs c = c.validateArgs file := ⟨_, rfl⟩

/-- A call leaves the folders where they were. -/
theorem Sited.of_answer (h : s.Sited w) (hquiet : (st.meets w).Quiet)
    (hanswer : s.calls.MayAnswer s.beforeCheck w st r v) : s.Sited v := by
  obtain ⟨hazard, -, hend⟩ := hanswer
  refine ⟨hend.regular (h.of_alike (st.meets_alike w)).regular hquiet, h.resolved, ?_⟩
  rw [hend.here_eq]
  exact h.apart

/-- A save keeps the tree valid, and new content that is to stay is in the tree. -/
theorem Valid.of_save (h : s.Valid accepts w) {save : Save} (hchecks : st.Checks s w.here accepts)
    (hsave : st.call.save? s = some save) (hanswer : s.calls.MayAnswer s.beforeCheck w st r v) :
    s.Valid accepts v ∧
      ∀ o, r = .ok (.outcome o) → Kept o → v.read save.path = .ok save.content := by
  have hw := h.of_alike (st.meets_alike w)
  have hsited := h.sited.of_answer hchecks.quiet hanswer
  obtain ⟨hazard, hperils, hend⟩ := hanswer
  obtain ⟨es, r', hr, hmeets⟩ := hend.satisfies
    (braves_save hsave hw.sited.regular hchecks.quiet hperils.1 hperils.2.1)
  have hmanaged := Call.managed_of_save hsave
  obtain ⟨halters, ⟨hfails, hreverts⟩ | happlies⟩ :=
    hmeets.settles hw.sited.regular hw.sited.resolved
  · refine ⟨hw.of_alters hsited halters ?_, fun o ho hkept => ?_⟩
    · rw [hw.view_eq hsited.regular halters.below halters.here fun p hp =>
        hreverts (hw.firm hmanaged) _ (hw.sited.not_owned hp) (not_littered hperils hp)]
      exact hw.accepted
    · subst hr
      cases r' with
      | ok o' =>
        cases ho
        exact absurd hkept (not_kept_of_failsEarly (hfails o rfl))
      | error failure => cases ho
  · refine ⟨hw.of_alters hsited halters ?_, fun _ _ _ => happlies.read⟩
    obtain ⟨x, hx, hprograms, hgood⟩ := happlies.checked
    obtain ⟨file, hfile⟩ := checkArgs_eq save s.controller
    rw [hfile, hchecks.answers x file ?_ hprograms] at hgood
    · exact view_alike hx ▸ hgood
    · exact hx.2.symm.trans halters.here

/-- One call keeps the tree valid. -/
theorem Valid.of_answer (h : s.Valid accepts w) (hchecks : st.Checks s w.here accepts)
    (hspares : st.call.Spares) (hanswer : s.calls.MayAnswer s.beforeCheck w st r v) :
    s.Valid accepts v := by
  have hw := h.of_alike (st.meets_alike w)
  have hsited := h.sited.of_answer hchecks.quiet hanswer
  have hsaves (hc : st.call.Saves) : s.Valid accepts v := by
    obtain ⟨save, hsave⟩ | ⟨failure, hfailure⟩ := s.save_or_failure hc
    · exact (h.of_save hchecks hsave hanswer).1
    · obtain ⟨hazard, -, hend⟩ := hanswer
      change (s.call st.call).run.MayEnd hazard _ r v at hend
      rw [hfailure] at hend
      obtain ⟨-, rfl⟩ := mayEnd_throw.mp hend
      exact hw
  obtain ⟨hazard, hperils, hend⟩ := hanswer
  change (s.call st.call).run.MayEnd hazard (st.meets w) r v at hend
  have hreads (hc : st.call.Reads) : s.Valid accepts v := by
    obtain rfl := mayEnd_reads hc hend
    exact hw
  rcases hcall : st.call with _ | content | _ | _ | name | ⟨name, content⟩ | _ | _ | _ | _ | _ | _ |
    name | _
  case readConfig | listServers | readServer | listBackups | readBackup =>
    exact hreads (by simp [hcall, Call.Reads])
  case createServer | renameServer | deleteServer | restoreBackup =>
    rw [hcall] at hspares
    exact hspares.elim
  case saveConfig | saveServer => exact hsaves (hcall ▸ trivial)
  case testConfig =>
    rw [hcall] at hend
    exact hw.of_alike (mayEnd_test hchecks.quiet hperils.2.1 hend)
  case createBackup =>
    rw [hcall] at hend
    exact hw.of_backups hsited (mayEnd_createBackup hw.sited.regular hw.sited.resolved hend)
      fun q hq => hq.1
  case deleteBackup =>
    rw [hcall] at hend
    exact hw.of_backups hsited
      (mayEnd_deleteBackup hw.sited.regular hw.sited.resolved hperils.1 hend) fun q hq => hq

theorem Valid.of_reach (h : s.Valid accepts w) (hchecks : ∀ st ∈ steps, st.Checks s w.here accepts)
    (hspares : ∀ st ∈ steps, st.call.Spares) (hreach : s.calls.MayReach s.beforeCheck w steps v) :
    s.Valid accepts v ∧ v.here = w.here := by
  refine hreach.invariant (I := fun u => s.Valid accepts u ∧ u.here = w.here) ⟨h, rfl⟩ ?_
  rintro u v r ⟨hvalid, hhere⟩ st hst hanswer
  refine ⟨hvalid.of_answer (hhere ▸ hchecks st hst) (hspares st hst) hanswer, ?_⟩
  obtain ⟨hazard, -, hend⟩ := hanswer
  exact hend.here_eq.trans hhere

/-- A tree that a checker accepts is accepted after every call of a run that saves, backs up and
reads, even where calls to the files fail before the check. A save whose new content is to stay has put
it in a tree that is accepted. -/
theorem accepted_after_saves (h : s.Valid accepts w)
    (hchecks : ∀ st ∈ steps, st.Checks s w.here accepts)
    (hspares : ∀ st ∈ steps, st.call.Spares) (done : List Step) (hdone : done <+: steps)
    (hreach : s.calls.MayReach s.beforeCheck w done v) :
    accepts (s.view v) = true ∧
      ∀ before st u save o, done = before ++ [st] → s.calls.MayReach s.beforeCheck w before u →
        s.calls.MayAnswer s.beforeCheck u st (.ok (.outcome o)) v → st.call.save? s = some save →
          Kept o → v.read save.path = .ok save.content := by
  have hvalid {early : List Step} {u : World} (hearly : early <+: steps)
      (hreach : s.calls.MayReach s.beforeCheck w early u) : s.Valid accepts u ∧ u.here = w.here :=
    h.of_reach (fun st hst => hchecks st (hearly.subset hst))
      (fun st hst => hspares st (hearly.subset hst)) hreach
  refine ⟨(hvalid hdone hreach).1.accepted, ?_⟩
  rintro before st u save o rfl hbefore hanswer hsave hkept
  obtain ⟨hu, hhere⟩ := hvalid ((List.prefix_append before [st]).trans hdone) hbefore
  have hst : st ∈ steps := hdone.subset (by simp)
  exact (hu.of_save (hhere ▸ hchecks st hst) hsave hanswer).2 o rfl hkept

/-- The calls of a run in which nothing goes wrong are among them. -/
theorem exists_beforeCheck (s : Site) (w : World) : ∃ hazard, s.beforeCheck w hazard :=
  ⟨.none, Hazard.blatant_none, fun h => h.elim, .inl fun _ _ _ _ _ => ⟨id, id⟩⟩

/-- Programs that answer with a checker's verdict. -/
def checking (s : Site) (here : Place) (accepts : View → Bool) : Programs := fun _ _ tree =>
  let seen : World :=
    { tree, here, clock := 0, noted := [], programs := fun _ _ tree => (.ok (.failed ""), tree),
      ran := [] }
  (.ok ⟨accepts (s.view seen), "", some 0, false⟩, tree)

private theorem checking_checks (s : Site) (here : Place) (accepts : View → Bool) (clock : Nat) (c : Call) :
    Step.Checks ⟨clock, checking s here accepts, c⟩ s here accepts := by
  refine ⟨fun _ _ _ => rfl, fun v file hhere hprograms => ?_⟩
  rw [World.replyTo, hprograms]
  change accepts (s.view _) = accepts (s.view v)
  exact congrArg accepts (view_alike ⟨rfl, hhere.symm⟩)

/-- A server file and a folder for backups; no folder named `d`. -/
def spare : World :=
  .atNoon ⟨[(["b"], .folder), (["b", ".conf"], .file [98] 0o640 (.known 0)), (["c"], .folder)]⟩ (.ok .bad)

private theorem spare_regular : spare.Regular :=
  ⟨⟨Tree.sound_of_entries (by decide), rfl⟩, Tree.linkless_of_entries (by simp [spare])⟩

def straight : Site := ⟨⟨.one, ["d", "a"]⟩, ⟨.one, ["b"]⟩, ⟨["c"]⟩, {}⟩

/-- Accepts everything but an exclamation mark for a configuration. -/
def calm (seen : View) : Bool := seen.config ≠ some [33]

theorem accepted_after_saves_straight :
    let save (content : String) : Step :=
      ⟨World.noon, checking straight [] calm, .saveConfig content⟩
    straight.Valid calm spare ∧
      calm (straight.view (straight.calls.after spare [save "x", save "!"])) = true ∧
      (straight.calls.after spare [save "x"]).read straight.config = .ok [120] := by
  intro save
  have hvalid : straight.Valid calm spare :=
    ⟨⟨spare_regular, by decide, by decide⟩, .inl (by decide), .inl (by decide), by cbv⟩
  have hchecks : ∀ st ∈ [save "x", save "!"], st.Checks straight spare.here calm := by
    simp only [List.mem_cons, List.not_mem_nil, or_false]
    rintro st (rfl | rfl)
    · exact checking_checks _ _ _ _ _
    · exact checking_checks _ _ _ _ _
  have hspares : ∀ st ∈ [save "x", save "!"], st.call.Spares := by
    simp only [List.mem_cons, List.not_mem_nil, or_false]
    rintro st (rfl | rfl)
    · trivial
    · trivial
  have hreach (steps : List Step) :
      straight.calls.MayReach straight.beforeCheck spare steps (straight.calls.after spare steps) :=
    Calls.mayReach_after straight.exists_beforeCheck _ _
  have hone := accepted_after_saves hvalid hchecks hspares [save "x"] (by simp) (hreach _)
  have hboth := accepted_after_saves hvalid hchecks hspares _ (List.prefix_refl _) (hreach _)
  have hanswer : straight.calls.MayAnswer straight.beforeCheck spare (save "x")
      (straight.calls.reply spare (save "x")) (straight.calls.after spare [save "x"]) :=
    Calls.mayAnswer_reply straight.exists_beforeCheck spare (save "x")
  have hreply : straight.calls.reply spare (save "x") = .ok (.outcome
      { artifact := "a", backup := some "a.20240501_120000.backup", backupCreated := true,
        applied := true, validated := true, reloadAttempted := true, reloaded := true }) := by
    cbv
  rw [hreply] at hanswer
  exact ⟨hvalid, hboth.1,
    hone.2 [] (save "x") spare (straight.configSave "x") _ rfl .start hanswer rfl (.inl rfl)⟩

/-- A site whose path of server files leads through the missing folder. -/
def winding : Site := ⟨⟨.one, ["d", "a"]⟩, ⟨.one, ["d", "..", "b"]⟩, ⟨["c"]⟩, {}⟩

/-- Accepts as long as there is no server file `.conf`. -/
def lone (seen : View) : Bool := (seen.servers ".conf").isNone

def windingSave : Step := ⟨World.noon, checking winding [] lone, .saveConfig ""⟩

/-- Where the path of the server files leads through a missing folder and back, a save that is turned
down makes that folder and so brings up server files that were not seen before. -/
theorem rejected_save_brings_up_servers :
    winding.Sited spare ∧ lone (winding.view spare) = true ∧ windingSave.call.Spares ∧
      windingSave.Checks winding spare.here lone ∧
      lone (winding.view (winding.calls.after spare [windingSave])) = false := by
  exact ⟨⟨spare_regular, by decide, by decide⟩, by cbv, trivial, checking_checks _ _ _ _ _, by cbv⟩

end Site
end ConfigSteward
