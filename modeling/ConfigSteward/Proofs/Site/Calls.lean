import ConfigSteward.Proofs.Site.Kinds
import ConfigSteward.Proofs.World.Lands
import ConfigSteward.Proofs.World.Runs
import ConfigSteward.Proofs.World.Still

/-!
# Calls on a site

A call is one of a site's operations with its arguments. A run makes calls one after the other, each
with a clock and programs of its own. Calls that read and list change nothing.
-/
namespace ConfigSteward

namespace Site

inductive Call where
  | readConfig
  | saveConfig (content : RawText)
  | testConfig
  | listServers
  | readServer (name : Option String)
  | saveServer (name : Option String) (content : RawText)
  | createServer (name : Option String) (content : Option RawText)
  | renameServer (old new : Option String)
  | deleteServer (name : Option String)
  | createBackup
  | listBackups (artifact : Option String)
  | readBackup (name : String)
  | deleteBackup (name : String)
  | restoreBackup (name : String)
  deriving DecidableEq

/-- What a call answers with. -/
inductive Answer where
  | config (d : Document)
  | outcome (o : Outcome)
  | tested (r : CommandResult)
  | servers (entries : List ServerEntry)
  | server (d : ServerDocument)
  | created (p : Path)
  | renamed (old new : String)
  | deleted (backup : Option String)
  | backup (name : String)
  | backups (bs : List Backup)
  | content (bytes : Bytes)
  | removed
  | restored (r : Restored)
  deriving DecidableEq

/-- The backup that an answer reports. -/
def Answer.reported : Answer → Option String
  | .outcome o => o.backup
  | .deleted name => name
  | .backup name => some name
  | .restored r => r.backup
  | _ => none

def call (s : Site) : Call → Task Answer
  | .readConfig => return .config (← s.readConfig)
  | .saveConfig content => return .outcome (← s.saveConfig content)
  | .testConfig => return .tested (← s.testConfig)
  | .listServers => return .servers (← s.listServers)
  | .readServer name => return .server (← s.readServer name)
  | .saveServer name content => return .outcome (← s.saveServer name content)
  | .createServer name content => return .created (← s.createServer name content)
  | .renameServer old new => do
    let names ← s.renameServer old new
    return .renamed names.1 names.2
  | .deleteServer name => return .deleted (← s.deleteServer name)
  | .createBackup => return .backup (← s.createBackup)
  | .listBackups artifact => return .backups (← s.store.list artifact)
  | .readBackup name => return .content (← s.store.get name)
  | .deleteBackup name => do
    s.store.delete name
    return .removed
  | .restoreBackup name => return .restored (← s.restoreBackup name)

/-- A call with the clock and the programs that it meets. -/
structure Step where
  clock : Nat
  programs : Programs
  call : Call

/-- The world as a step finds it. -/
def Step.meets (st : Step) (w : World) : World :=
  { w with clock := st.clock, programs := st.programs }

theorem Step.meets_alike (st : Step) (w : World) : w.Alike (st.meets w) := ⟨rfl, rfl⟩

/-- The calls of a site, step by step. -/
def calls (s : Site) : Calls Step (Except Failure Answer) where
  meets := Step.meets
  plan st := (s.call st.call).run

theorem reply_eq (s : Site) (w : World) (st : Step) :
    s.calls.reply w st = ((s.call st.call).run.run (st.meets w)).1 := rfl

theorem advance_eq (s : Site) (w : World) (st : Step) :
    s.calls.advance w st = ((s.call st.call).run.run (st.meets w)).2 := rfl

/-! ### Calls that only read -/

/-- The call reads or lists. -/
def Call.Reads : Call → Prop
  | readConfig | listServers | readServer _ | listBackups _ | readBackup _ => True
  | _ => False

theorem asking_call {K : Plan.Kind} (h : K.Asking) (s : Site) {c : Call} (hc : c.Reads) :
    K _ (s.call c).run := by
  cases c with
  | readConfig =>
    exact h.andThen (h.andThen (h.readText _ _) fun _ => h.pure _) fun _ => h.pure _
  | listServers => exact h.andThen (h.listServers s) fun _ => h.pure _
  | readServer name => exact h.andThen (h.readServer s name) fun _ => h.pure _
  | listBackups artifact => exact h.andThen (h.listBackups s.store artifact) fun _ => h.pure _
  | readBackup name => exact h.andThen (h.get s.store name) fun _ => h.pure _
  | _ => exact hc.elim

theorem still_call (s : Site) {c : Call} (hc : c.Reads) : (s.call c).run.Still :=
  asking_call Plan.Still.asking s hc

/-! ### All calls -/

section
variable {K : Plan.Kind} (h : K.Working) (hlocks : K.Locking) (s : Site)
include h hlocks

private theorem working_rename (old new : Option String) : K _ (s.renameServer old new).run := by
  unfold renameServer
  split
  · exact h.done _
  · refine h.andThen (h.asking.serverPathTask s old) fun source =>
      h.andThen (h.asking.serverPathTask s new) fun target => hlocks.hold h.asking _ ?_
    refine h.andThen (h.ofFile (h.asking.leads source _)) fun there => ?_
    cases there with
    | false => exact h.done _
    | true =>
      refine h.andThen (h.ofFile (h.asking.leads target _)) fun taken => ?_
      cases taken with
      | true => exact h.done _
      | false =>
        exact h.andThen (h.ofFileOr (h.acts (.move source target) trivial)) fun _ => h.pure _

private theorem working_restore (name : String) : K _ (s.restoreBackup name).run := by
  refine h.andThen (h.asking.get s.store name) fun content => ?_
  cases s.restoreTarget name with
  | error refusal => exact h.done _
  | ok target =>
    refine hlocks.hold h.asking [target] (h.andThen (h.safetyBackup s target) fun backup => ?_)
    refine h.andThen (h.ofFileOr (h.replace target content)) fun _ => ?_
    exact h.andThen (h.acts (.run _) trivial) fun _ => h.pure _

/-- Every call is of every kind that has what work on files is made of and the locks around it. -/
theorem working_call (c : Call) : K _ (s.call c).run := by
  have hheld {α : Type} {p : Path} {whole : Task α}
      (hwhole : ∃ task, Working task ∧ whole = Lock.hold [p] task) : K _ whole.run := by
    obtain ⟨task, hworking, rfl⟩ := hwhole
    exact hlocks.hold h.asking _ (hworking K h)
  have hsave (save : Save) : K _ (save.run s.store s.controller).run :=
    hlocks.hold h.asking _ (h.saveSteps save s.store s.controller)
  cases c with
  | readConfig | listServers | readServer | listBackups | readBackup =>
    exact asking_call h.asking s trivial
  | saveConfig content =>
    cases content with
    | whole text => exact h.andThen (hsave _) fun _ => h.pure _
    | broken text => exact h.done _
  | testConfig => exact h.andThen (h.acts (.run _) trivial) fun _ => h.pure _
  | saveServer name content =>
    refine h.andThen (h.andThen (h.asking.serverPathTask s name) fun p => ?_) fun _ => h.pure _
    cases content with
    | whole text => exact hsave _
    | broken text => exact h.done _
  | createServer name content =>
    refine h.andThen ?_ fun _ => h.pure _
    rcases hp : s.serverPath name with refusal | p
    · rw [createServer, serverPathTask, hp]
      exact h.done _
    · exact hheld (createServer_eq_hold content hp)
  | renameServer old new => exact h.andThen (working_rename h hlocks s old new) fun _ => h.pure _
  | deleteServer name =>
    refine h.andThen ?_ fun _ => h.pure _
    rcases hp : s.serverPath name with refusal | p
    · rw [deleteServer, serverPathTask, hp]
      exact h.done _
    · exact hheld (deleteServer_eq_hold hp)
  | createBackup => exact h.andThen (hheld (createBackup_eq_hold s)) fun _ => h.pure _
  | deleteBackup name => exact h.andThen (h.deleteBackup s.store name) fun _ => h.pure _
  | restoreBackup name => exact h.andThen (working_restore h hlocks s name) fun _ => h.pure _

end

end Site
end ConfigSteward
