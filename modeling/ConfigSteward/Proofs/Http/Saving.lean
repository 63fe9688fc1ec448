import ConfigSteward.Http.Answering
import ConfigSteward.Proofs.Http.Routing
import ConfigSteward.Proofs.Save.Telling
import ConfigSteward.Proofs.Site.ServerFiles

/-!
# What the answer to a save tells

The status and the fields of the answer to a request that saves a file tell what is on disk
afterwards: whether the new content is there or what was there before, which program failed, and
where the prior content is backed up.
-/
namespace ConfigSteward

namespace Http

open Plan World

variable {s : Site} {r : Request} {e : Endpoint} {save : Save} {store : Store} {c : Controller}
  {w v : World} {es : List Execution} {o : Outcome} {a : Answer}

/-! ### The fields of an answer -/

/-- The field of an answer with a key. -/
def Answer.field? (a : Answer) (key : String) : Option Json :=
  match a.content with
  | .json fields => Json.field? fields key
  | .text _ => none

/-- The field of an answer with a key, if it is a text. -/
def Answer.text? (a : Answer) (key : String) : Option String :=
  match a.field? key with
  | some (.text text) => some text
  | _ => none

@[simp] theorem status_shared (r : Request) (a : Answer) : (shared r a).status = a.status := by
  unfold shared
  split <;> rfl

@[simp] theorem content_shared (r : Request) (a : Answer) : (shared r a).content = a.content := by
  unfold shared
  split <;> rfl

/-! ### Requests that save -/

/-- How a content is saved, or why it cannot be. -/
def saveOf (save : String → Save) : RawText → Except Failure Save
  | .whole text => .ok (save text)
  | .broken text => .error (.unencodable text)

/-- What an endpoint saves, given the content, or why it fails at once; `none` if it is not for
saving. -/
def Endpoint.save? (s : Site) (content : RawText) : Endpoint → Option (Except Failure Save)
  | .saveConfig => some (saveOf s.configSave content)
  | .saveServer name =>
    match s.serverPath name with
    | .ok p => some (saveOf (s.serverSave p) content)
    | .error refusal => some (.error (.refused refusal))
  | _ => none

/-- A file is backed up under its own name, and the server is asked to reload. -/
theorem save_of_target {content : RawText} (h : e.save? s content = some (.ok save)) :
    save.artifact = save.path.name ∧ save.reload = true := by
  have hof {save' : String → Save} (hsave : saveOf save' content = .ok save) :
      ∃ text, save = save' text := by
    cases content with
    | whole text => exact ⟨text, (Except.ok.inj hsave).symm⟩
    | broken text => cases hsave
  cases e with
  | saveConfig =>
    obtain ⟨text, rfl⟩ := hof (Option.some.inj h)
    exact ⟨rfl, rfl⟩
  | saveServer name =>
    rcases hp : s.serverPath name with refusal | p
    · simp only [Endpoint.save?, hp, Option.some.injEq, reduceCtorEq] at h
    · simp only [Endpoint.save?, hp, Option.some.injEq] at h
      obtain ⟨text, rfl⟩ := hof h
      exact ⟨rfl, rfl⟩
  | _ => cases h

/-- The text under `content` among fields. -/
def contentIn (fields : List (String × Json)) : Option RawText :=
  match Json.field? fields "content" with
  | some (.text text) => some text
  | some (.broken text) => some (.broken text)
  | _ => none

/-- The content that a request brings: the text under `content` in an object. -/
def Request.content? (r : Request) : Option RawText :=
  match readObject r with
  | .ok fields => contentIn fields
  | .error _ => none

/-- The kind of a refusal, if a result is one. -/
def refusalKind? {α : Type} : Except Failure α → Option Refusal.Kind
  | .error (.refused refusal) => some refusal.kind
  | _ => none

/-- The kind of the refusal that a request to an endpoint ends in, if it ends in one. -/
def refusedAs? (s : Site) (e : Endpoint) (r : Request) (w : World) : Option Refusal.Kind :=
  match fieldsFor e r with
  | .ok fields => refusalKind? ((reply s fields e).run.run w).1
  | .error _ => none

/-- The answer to a save tells the truth about the world that the save leaves and the programs that
it ran. `kind?` is the kind of refusal behind the answer. -/
structure Truthful (save : Save) (store : Store) (c : Controller) (w : World)
    (kind? : Option Refusal.Kind) (a : Answer) (v : World) (es : List Execution) : Prop where
  status : a.status = 200 ∨ a.status = 400 ∨ a.status = 500 ∨ a.status = 504
  saved : a.status = 200 ↔
    v.read save.path = .ok save.content ∧ RanWell es (save.checkArgs c) ∧ RanWell es c.reloadArgs
  rejected : a.status = 400 → Save.Holds v save.path (held w save.path)
  late : a.status = 504 →
    a.field? "rolledBack" = some (.bool true) ∧ Save.Holds v save.path (held w save.path) ∨
      a.field? "rolledBack" = some (.bool false) ∧ v.read save.path = .ok save.content ∧
        RanWell es (save.checkArgs c)
  unloaded : a.status = 500 → kind? = some .reload →
    v.read save.path = .ok save.content ∧ RanWell es (save.checkArgs c)
  failed : a.status = 500 → kind? ≠ some .reload → Save.Holds v save.path (held w save.path)
  output : a.status ≠ 200 → Blames es (a.text? "output")
  backup : ∀ value, a.field? "backup" = some value → value = .null ∨
    ∃ name, value = .text name ∧ Save.BackedUp store w v name ((held w save.path).getD [])

/-! ### From an outcome to an answer -/

/-- How an endpoint's result is put in an answer. -/
def settled (r : Request) : Except Failure Reply → Answer
  | .ok (status, fields) => shared r ⟨status, [], .json fields⟩
  | .error (.refused refusal) => shared r (refusalAnswer refusal)
  | .error failure =>
    ⟨500, [], .json [("error", .text ("Internal error: " ++ failure.message))]⟩

private theorem endpointAnswer_eq {fields : List (String × Json)} (h : fieldsFor e r = .ok fields) :
    endpointAnswer s e r = (reply s fields e).run >>= fun x => pure (settled r x) := by
  simp only [endpointAnswer, h]
  congr 1
  funext x
  rcases x with (_ | _ | _ | _ | _ | _ | _) | ⟨status, fields⟩ <;> rfl

/-- The result of an endpoint that saves: `report` lists the fields after a success. -/
def told (report : Outcome → List (String × Json)) : Except Failure Outcome → Except Failure Reply
  | .ok o =>
    match o.refusal? with
    | some refusal => .error (.refused refusal)
    | none => .ok (ok (report o))
  | .error failure => .error failure

def Reports (report : Outcome → List (String × Json)) : Prop :=
  ∀ o, Json.field? (report o) "backup" = some (Json.ofText? o.backup)

variable {report : Outcome → List (String × Json)}

/-- The status that stands for how a save went. -/
def statusOf (o : Outcome) : Nat :=
  match o.error with
  | none => 200
  | some .validationFailed => 400
  | some .timeout => 504
  | some .backupFailed | some .writeFailed | some .reloadFailed => 500

private theorem status_told (o : Outcome) : (settled r (told report (.ok o))).status = statusOf o := by
  rcases herror : o.error with _ | _ | _ | _ | _ | _ <;>
    simp [told, Outcome.refusal?, herror, settled, statusOf, ok, refusalAnswer, Refusal.status,
      Refusal.Kind.status]

private theorem kind_told (o : Outcome) :
    refusalKind? (told report (.ok o)) = some .reload ↔ o.error = some .reloadFailed := by
  rcases herror : o.error with _ | _ | _ | _ | _ | _ <;>
    simp [told, Outcome.refusal?, herror, refusalKind?]

/-- The fields of an answer that tells of a failed save. -/
theorem field?_told_of_error {x : Outcome.Error} (herror : o.error = some x) (key : String) :
    (settled r (told report (.ok o))).field? key = o.refusal?.bind fun refusal =>
      Json.field? refusal.body key := by
  simp [told, Outcome.refusal?, herror, settled, Answer.field?, refusalAnswer]

private theorem output_told (o : Outcome) (hfailed : o.success = false) :
    (settled r (told report (.ok o))).text? "output" = o.faultOutput? := by
  rcases herror : o.error with _ | x
  · simp [Outcome.success, herror] at hfailed
  rw [Answer.text?, field?_told_of_error herror]
  cases x <;>
    simp [Outcome.refusal?, herror, Refusal.body, Outcome.details, Json.setField, Json.field?,
      Outcome.faultOutput?]

private theorem rolledBack_told (o : Outcome) (hlate : o.error = some .timeout) :
    (settled r (told report (.ok o))).field? "rolledBack" = some (.bool o.rolledBack) := by
  rw [field?_told_of_error hlate]
  simp [Outcome.refusal?, hlate, Refusal.body, Outcome.details, Json.setField, Json.field?]

private theorem backup_told (hreport : Reports report) {value : Json}
    (hvalue : (settled r (told report (.ok o))).field? "backup" = some value) :
    value = .null ∨ value = Json.ofText? o.backup := by
  rcases herror : o.error with _ | x
  · simp [told, Outcome.refusal?, herror, settled, Answer.field?, ok, hreport o] at hvalue
    exact .inr hvalue.symm
  · rw [field?_told_of_error herror] at hvalue
    cases x <;>
      simp [Outcome.refusal?, herror, Refusal.body, Outcome.details, Json.setField,
        Json.field?] at hvalue <;>
      simp [← hvalue]

/-- The answer to a save with an honest outcome is truthful. -/
theorem truthful_told (hreport : Reports report) (h : o.Honest save store c w v es) :
    Truthful save store c w (refusalKind? (told report (.ok o))) (settled r (told report (.ok o)))
      v es := by
  have hlasting := h.lasting
  have hundone := h.undone
  unfold Outcome.Lasting Outcome.success at hlasting hundone
  refine ⟨?_, ?_, fun hstatus => ?_, fun hstatus => ?_, fun hstatus hkind => ?_,
    fun hstatus hkind => ?_, fun hstatus => ?_, fun value hvalue => ?_⟩
  all_goals try rw [status_told, statusOf] at hstatus
  · rw [status_told, statusOf]
    rcases o.error with _ | _ | _ | _ | _ | _ <;> simp
  · rw [← h.success, status_told, statusOf, Outcome.success]
    rcases o.error with _ | _ | _ | _ | _ | _ <;> simp
  · rcases herror : o.error with _ | _ | _ | _ | _ | _ <;> simp [herror] at hstatus hundone
    exact hundone
  · rcases herror : o.error with _ | _ | _ | _ | _ | _ <;> simp [herror] at hstatus
    rw [rolledBack_told o herror, h.late herror]
    rcases hvalidated : o.validated
    · exact .inl ⟨rfl, hundone (by simp [herror, hvalidated])⟩
    · exact .inr ⟨rfl, hlasting (.inr (.inr ⟨herror, hvalidated⟩))⟩
  · exact hlasting (.inr (.inl ((kind_told o).mp hkind)))
  · rw [Ne, kind_told] at hkind
    rcases herror : o.error with _ | _ | _ | _ | _ | _ <;>
      simp [herror] at hstatus hundone hkind
    · exact hundone
    · exact hundone
  · have hfailed : o.success = false := by
      rcases herror : o.error with _ | x
      · simp [herror] at hstatus
      · simp [Outcome.success, herror]
    rw [output_told o hfailed]
    exact h.blames hfailed
  · rcases backup_told hreport hvalue with hnull | hname
    · exact .inl hnull
    · rcases hbackup : o.backup with _ | name
      · exact .inl (by rw [hname, hbackup]; rfl)
      · exact .inr ⟨name, by rw [hname, hbackup]; rfl, h.backup name hbackup⟩

/-- Where a link leads back to itself on the way to the file, nothing is done. -/
theorem truthful_looped (hp : Save.Replaceable w save.path) (place : Place) :
    Truthful save store c w (refusalKind? (told report (.error (.linkLoop place))))
      (settled r (told report (.error (.linkLoop place)))) w [] where
  status := .inr (.inr (.inl rfl))
  saved := by simp [told, settled, Save.not_ranWell_nil]
  rejected := by simp [told, settled]
  late := by simp [told, settled]
  unloaded := by simp [told, refusalKind?]
  failed _ _ := hp.holds
  output _ := .nobody (by simp)
  backup value hvalue := by
    simp [told, settled, Answer.field?, Json.field?] at hvalue

/-- An endpoint that runs a save answers as the save's outcome says. -/
theorem run_told (task : Task Outcome) :
    (do let o ← task; demandSuccess o; return ok (report o) : Task Reply).run
      = task.run >>= fun x => pure (told report x) := by
  rw [ExceptT.run_bind]
  refine congrArg (task.run >>= ·) (funext fun x => ?_)
  cases x with
  | error failure => rfl
  | ok o =>
    simp only [demandSuccess, told]
    cases o.refusal? <;> rfl

section
variable {fields : List (String × Json)} {content : RawText} (hcontent : contentIn fields = some content)
include hcontent

private theorem demand_contentOf : demand contentOf fields = pure content := by
  unfold contentIn at hcontent
  split at hcontent
  · next hfield =>
    cases hcontent
    simp [demand, contentOf, hfield, textField, Except.mapError]
  · next hfield =>
    cases hcontent
    simp [demand, contentOf, hfield, textField, Except.mapError]
  · cases hcontent

theorem reply_saveConfig : reply s fields .saveConfig = saveConfigReply s content := by
  rw [reply, demand_contentOf hcontent, pure_bind]

theorem reply_saveServer (name : String) :
    reply s fields (.saveServer name) = saveServerReply s name content := by
  rw [reply, demand_contentOf hcontent, pure_bind]

/-- An endpoint that saves a file does what the save does. -/
theorem run_reply_save (htarget : e.save? s content = some (.ok save)) :
    ∃ report, Reports report ∧ (reply s fields e).run
      = (save.run s.store s.controller).run >>= fun x => pure (told report x) := by
  cases e with
  | saveConfig =>
    cases content with
    | broken text => cases htarget
    | whole text =>
      cases htarget
      rw [reply_saveConfig hcontent, saveConfigReply]
      exact ⟨fun o => [message "saved, tested and reloaded", ("backup", Json.ofText? o.backup),
        ("output", .text o.validationOutput), ("reload", .text o.reloadOutput)], fun o => rfl,
        run_told _⟩
  | saveServer name =>
    rcases hp : s.serverPath name with refusal | p
    · simp only [Endpoint.save?, hp] at htarget
      cases htarget
    cases content with
    | broken text =>
      simp only [Endpoint.save?, hp] at htarget
      cases htarget
    | whole text =>
      simp only [Endpoint.save?, hp] at htarget
      cases htarget
      rw [reply_saveServer hcontent, saveServerReply]
      refine ⟨fun o => [message "saved and reloaded", ("backup", Json.ofText? o.backup),
        ("output", .text o.reloadOutput)], fun o => rfl, (run_told _).trans ?_⟩
      rw [Site.saveServer, Site.serverPathTask, hp]
      rfl
  | _ => cases htarget

/-- A name that is refused and a content that cannot be encoded are answered without a look at the
files. -/
theorem run_reply_failed {failure : Failure} (htarget : e.save? s content = some (.error failure)) :
    (reply s fields e).run = .done (.error failure) ∧
      ((∃ refusal, failure = .refused refusal ∧ refusal.kind = .invalidName) ∨
        ∃ text, failure = .unencodable text) := by
  cases e with
  | saveConfig =>
    cases content with
    | whole text => cases htarget
    | broken text =>
      cases htarget
      rw [reply_saveConfig hcontent, saveConfigReply]
      exact ⟨rfl, .inr ⟨text, rfl⟩⟩
  | saveServer name =>
    rw [reply_saveServer hcontent, saveServerReply, Site.saveServer, Site.serverPathTask]
    rcases hp : s.serverPath name with refusal | p
    · simp only [Endpoint.save?, hp] at htarget
      cases htarget
      exact ⟨rfl, .inl ⟨refusal, rfl, Site.refusal_of_serverPath hp⟩⟩
    cases content with
    | whole text =>
      simp only [Endpoint.save?, hp] at htarget
      cases htarget
    | broken text =>
      simp only [Endpoint.save?, hp] at htarget
      cases htarget
      exact ⟨rfl, .inr ⟨text, rfl⟩⟩
  | _ => cases htarget

end

private theorem fields_of_content {content : RawText} (h : r.content? = some content) :
    ∃ fields, readObject r = .ok fields ∧ contentIn fields = some content := by
  unfold Request.content? at h
  split at h
  · next fields hbody => exact ⟨fields, hbody, h⟩
  · cases h

section
variable {content : RawText} {target : Except Failure Save} {fields : List (String × Json)}
  (hbody : readObject r = .ok fields) (htarget : e.save? s content = some target)
include hbody htarget

private theorem fieldsFor_eq : fieldsFor e r = .ok fields := by
  have htakes : e.takesBody = true := by
    cases e <;> first | rfl | cases htarget
  rw [fieldsFor, if_pos htakes, hbody]

private theorem answer_eq (hmethod : r.method = "PUT") (hroute : dispatch r.method r.path = .endpoint e) :
    answer s r = (reply s fields e).run >>= fun x => pure (settled r x) := by
  have hask : preflight? r = none := by
    unfold preflight?
    split
    · rw [if_neg (by simp [hmethod])]
    · rfl
  rw [answer, hask]
  simp only [hroute]
  exact endpointAnswer_eq (fieldsFor_eq hbody htarget)

end

/-- A request to save that brings a text as content is answered truthfully, even where calls to the
files fail before the check: the status tells whether the new content is in place, checked and loaded,
whether it is in place but the reload failed, or whether the file is as it was; the output is that of
the program that failed; and the backup that is named holds the prior content. A request whose file
name is refused or whose content cannot be encoded changes nothing. -/
theorem saving_answered_truly {content : RawText} {target : Except Failure Save} {hazard : Hazard}
    (hw : w.Sound) (hquiet : w.Quiet) (hblatant : hazard.Blatant)
    (hceases : hazard.CeasesAfter w.ran.length) (hmethod : r.method = "PUT")
    (hroute : dispatch r.method r.path = .endpoint e) (hcontent : r.content? = some content)
    (htarget : e.save? s content = some target)
    (hlive : ∀ save, target = .ok save → Save.Replaceable w save.path) :
    ∃ fields, fieldsFor e r = .ok fields ∧
      answer s r = (reply s fields e).run >>= (fun x => pure (settled r x)) ∧
      (reply s fields e).run.Braves hazard w fun x v es =>
        match target with
        | .error (.refused _) => (settled r x).status = 400 ∧ v = w
        | .error _ => (settled r x).status = 500 ∧ v = w
        | .ok save =>
          Truthful save s.store s.controller w (refusalKind? x) (settled r x) v es := by
  obtain ⟨fields, hbody, hfield⟩ := fields_of_content hcontent
  refine ⟨fields, fieldsFor_eq hbody htarget, answer_eq hbody htarget hmethod hroute, ?_⟩
  rcases target with failure | save
  · obtain ⟨hreply, ⟨refusal, rfl, hkind⟩ | ⟨text, rfl⟩⟩ := run_reply_failed hfield htarget
    · rw [hreply]
      exact ⟨by simp [settled, refusalAnswer, Refusal.status, hkind, Refusal.Kind.status], rfl⟩
    · rw [hreply]
      exact ⟨by simp [settled], rfl⟩
  · have hp := hlive save rfl
    obtain ⟨hartifact, hreload⟩ := save_of_target htarget
    obtain ⟨report, hreport, hreply⟩ := run_reply_save hfield htarget
    rw [hreply]
    refine always_bind.mpr ((Save.braves_run hw hp.steady hquiet hblatant hceases s.store
      s.controller).mono ?_)
    rintro (failure | o) v es hmeets
    · cases hmeets with
      | well ends =>
        cases ends with
        | looped place => exact always_done.mpr (by simpa using truthful_looped hp place)
    · have hhonest := hmeets.honest hw hp hartifact hreload
      exact always_done.mpr (by simpa using truthful_told hreport hhonest)

/-- A file, a folder for servers and backups and a checker that turns everything down. -/
def strictSite : Site :=
  { config := ⟨.one, ["a"]⟩, servers := ⟨.one, ["b"]⟩, store := ⟨["b"]⟩, controller := {} }

/-- A request to save a short content. -/
def shortRequest (path : String) : Request :=
  { method := "PUT"
    path := path
    headers := [("content-type", "application/json")]
    body := Text.encodeString "\x7b\"content\": \"y\"\x7d" }

theorem saving_answered_truly_strict :
    let r := shortRequest ("/api/servers/" ++ "x")
    let p : Path := ⟨.one, ["b", "x.conf"]⟩
    r.content? = some "y" ∧ strictSite.serverPath (some "x") = .ok p ∧
      Truthful (strictSite.serverSave p "y") ⟨["b"]⟩ {} Save.strict
        (refusedAs? strictSite (.saveServer "x") r Save.strict)
        ((answer strictSite r).run Save.strict).1 ((answer strictSite r).run Save.strict).2
        ((answer strictSite r).executions Save.strict) := by
  have hcontent (path : String) : (shortRequest path).content? = some "y" := by
    change (shortRequest "").content? = some "y"
    decide +kernel
  have hpath : strictSite.serverPath (some "x") = .ok ⟨.one, ["b", "x.conf"]⟩ := rfl
  have hplace : Save.strict.tree.walk false Save.strict.here ⟨.one, ["b", "x.conf"]⟩
      = .ok ["b", "x.conf"] := by cbv
  have hsound : Save.strict.Sound := ⟨Tree.sound_of_entries (by decide), rfl⟩
  have hroute : dispatch "PUT" ("/api/servers/" ++ "x") = .endpoint (.saveServer "x") :=
    dispatch_server (by decide) (by decide)
  have htarget : Endpoint.save? strictSite "y" (.saveServer "x")
      = some (.ok (strictSite.serverSave ⟨.one, ["b", "x.conf"]⟩ "y")) := by
    rw [Endpoint.save?, hpath]
    rfl
  have hlive : ∀ save, Except.ok (strictSite.serverSave ⟨.one, ["b", "x.conf"]⟩ "y")
      = (.ok save : Except Failure Save) → Save.Replaceable Save.strict save.path := by
    rintro save ⟨⟩
    refine ⟨fun q hq => ?_, fun hup => absurd hup (by decide)⟩
    rw [← Except.ok.inj (hplace.symm.trans hq)]
    rfl
  obtain ⟨fields, hfields, hanswer, hbraves⟩ := saving_answered_truly hsound (fun _ _ _ => rfl)
    (Hazard.blatant_upTo 0) (Hazard.ceases_upTo 0) rfl hroute (hcontent _) htarget hlive
  have htruthful := hbraves.run
  refine ⟨hcontent _, hpath, ?_⟩
  simp only [refusedAs?, hfields, hanswer, run_bind, executions_bind, pure_eq, run_done, executions,
    List.append_nil]
  exact htruthful

/-- Two folders, one of them for backups. -/
def bypassed : World := { Save.strict with tree := ⟨[(["x"], .folder), (["b"], .folder)]⟩ }

/-- A primary configuration whose path goes to a missing folder and back, to a folder that is there.
-/
def bypassedSite : Site := { strictSite with config := ⟨.one, ["a", "..", "x"]⟩ }

/-- The world once the empty prior content is backed up. -/
def bypassedStored : World :=
  (bypassed.noting "x").withFile ["b", "x.20240501_120000.backup"] []

/-- The world once the missing folder is made. -/
def bypassedDug : World := { bypassedStored with tree := bypassedStored.tree.put ["a"] .folder }

theorem does_replace_bypassed (content : Bytes) :
    (FileTask.replace ⟨.one, ["a", "..", "x"]⟩ content).run.Does (fun _ => True) bypassedStored
      fun r v _ => (∃ f, r = .error f) ∧ v = bypassedDug := by
  have htree : bypassedDug.tree = ⟨[(["a"], .folder), (["b", "x.20240501_120000.backup"],
      .file [] plainMode .lately), (["x"], .folder), (["b"], .folder)]⟩ := by cbv
  have hsound : bypassedDug.Sound := by
    refine ⟨?_, rfl⟩
    rw [htree]
    exact Tree.sound_of_entries (by decide)
  have hstands : bypassedDug.Stands (Path.parent ⟨.one, ["a", "..", "x"]⟩) := ⟨[], by cbv, rfl⟩
  have hwalk : bypassedDug.tree.walk false bypassedDug.here ⟨.one, ["a", "..", "x"]⟩ = .ok ["x"] := by
    cbv
  have hfolder : bypassedDug.tree.get? ["x"] = some .folder := by cbv
  have hdug := FileTask.does_replace_folder hsound hstands hwalk hfolder content
  have hmakes : (FileTask.ensureFolder ⟨.one, ["a", ".."]⟩).run.run bypassedStored
      = (.ok (), bypassedDug) := by cbv
  have hfinds : (FileTask.ensureFolder ⟨.one, ["a", ".."]⟩).run.run bypassedDug
      = (.ok (), bypassedDug) := by cbv
  rw [FileTask.replace] at hdug ⊢
  have hrest := (does_andThen.mp hdug).ends
  refine does_andThen.mpr ((does_of_run hmakes).mono (fun _ _ => trivial) ?_)
  rintro r v es ⟨rfl, rfl⟩
  have hfinds' : (FileTask.ensureFolder (Path.parent ⟨.one, ["a", "..", "x"]⟩)).run.run bypassedDug
      = (.ok (), bypassedDug) := hfinds
  rw [hfinds'] at hrest
  exact hrest

theorem does_run_bypassed :
    ((bypassedSite.configSave "y").run bypassedSite.store bypassedSite.controller).run.Does
      (fun _ => True) bypassed fun r v _ => v = bypassedDug ∧ ∃ message,
        r = .ok { (bypassedSite.configSave "y").backedUp "x.20240501_120000.backup" with
          error := some .writeFailed, message := message } := by
  have hprior : (Save.priorContent ⟨.one, ["a", "..", "x"]⟩).run.run bypassed
      = (.ok none, bypassed) := by cbv
  have hcreate : ((Store.mk ["b"]).create "x" []).run.run bypassed
      = (.ok ⟨"x.20240501_120000.backup", "x", some (bypassed.readingFor "x"), 0⟩, bypassedStored) := by
    cbv
  obtain ⟨⟨f, hfault⟩, hv⟩ := (does_replace_bypassed (Text.encodeString "y")).ends
  refine Lock.does_hold_of_resolves trivial ?_ ?_
  · have hplace : bypassed.tree.resolve bypassed.here ⟨.one, ["a", "..", "x"]⟩ = .ok ["x"] := by cbv
    rintro p hp
    obtain rfl := List.mem_singleton.mp hp
    exact ⟨_, hplace⟩
  · refine does_andThen.mpr (Task.does_attemptFile.mpr ((does_of_run hprior).mono
      (fun _ _ => trivial) ?_))
    rintro r v es ⟨rfl, rfl⟩
    refine does_andThen.mpr (Task.does_attempt.mpr ((does_of_run hcreate).mono
      (fun _ _ => trivial) ?_))
    rintro r v es ⟨rfl, rfl⟩
    refine does_andThen.mpr (Task.does_attemptFile.mpr ((does_of_run (Prod.ext hfault hv)).mono
      (fun _ _ => trivial) ?_))
    rintro r v es ⟨rfl, rfl⟩
    exact does_pure.mpr ⟨trivial, rfl, _, rfl⟩

/-- Where the file's path leads through a missing folder and back with `..`, a save that fails may
make that folder, and what the path then leads to was not there before. -/
theorem answer_untrue_through_missing_folder :
    let r := shortRequest "/api/config"
    r.content? = some "y" ∧ bypassed.Quiet ∧
      bypassed.tree.walk false bypassed.here bypassedSite.config = .error .noEntry ∧
      held bypassed bypassedSite.config = none ∧
      ((answer bypassedSite r).run bypassed).1.status = 500 ∧
      refusedAs? bypassedSite .saveConfig r bypassed = some .fileAccess ∧
      ¬ Save.Holds ((answer bypassedSite r).run bypassed).2 bypassedSite.config none := by
  intro r
  have hcontent : r.content? = some "y" := by decide +kernel
  obtain ⟨fields, hbody, hfield⟩ := fields_of_content hcontent
  have htarget : Endpoint.save? bypassedSite "y" .saveConfig
    = some (.ok (bypassedSite.configSave "y")) := rfl
  obtain ⟨report, -, hreply⟩ := run_reply_save hfield htarget
  obtain ⟨hv, message, hresult⟩ := does_run_bypassed.ends
  have hholds : ¬ Save.Holds bypassedDug bypassedSite.config none := by
    intro hholds
    have hfolder : bypassedDug.tree.get? ["x"] = some .folder := by cbv
    rw [hholds ["x"] (by cbv)] at hfolder
    cases hfolder
  have hkind : refusedAs? bypassedSite .saveConfig r bypassed
      = refusalKind? ((reply bypassedSite fields .saveConfig).run.run bypassed).1 := by
    rw [refusedAs?, fieldsFor_eq hbody htarget]
  rw [hkind, answer_eq hbody htarget rfl dispatch_config, hreply]
  simp only [run_bind, pure_eq, run_done]
  rw [hresult, hv, status_told]
  exact ⟨hcontent, fun _ _ _ => rfl, by cbv, by cbv, rfl, rfl, hholds⟩

end Http
end ConfigSteward
