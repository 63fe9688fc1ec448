import ConfigSteward.Command.Script
import ConfigSteward.Http.Answering
import ConfigSteward.Json.Writer
import ConfigSteward.Main
import ConfigSteward.Proofs.Apart.Calls
import ConfigSteward.Proofs.Apart.Commuting
import ConfigSteward.Proofs.Backup.Exhaustion
import ConfigSteward.Proofs.Backup.Listing
import ConfigSteward.Proofs.Backup.Finding
import ConfigSteward.Proofs.Backup.Naming
import ConfigSteward.Proofs.Backup.Reuse
import ConfigSteward.Proofs.Concurrency.Serial
import ConfigSteward.Proofs.Http.Saving
import ConfigSteward.Proofs.Name.ServerName
import ConfigSteward.Proofs.Save.Accounting
import ConfigSteward.Proofs.Save.Crash
import ConfigSteward.Proofs.Save.Failing
import ConfigSteward.Proofs.Save.Links
import ConfigSteward.Proofs.Servers.Runs
import ConfigSteward.Proofs.Settings.Precedence
import ConfigSteward.Proofs.Shell.Patterns
import ConfigSteward.Proofs.Shell.Running
import ConfigSteward.Proofs.Site.Containment
import ConfigSteward.Proofs.Site.Oversized
import ConfigSteward.Proofs.Site.Refusing
import ConfigSteward.Proofs.Site.Renaming
import ConfigSteward.Proofs.Site.Reopening
import ConfigSteward.Proofs.Site.Texts
import ConfigSteward.Proofs.Site.Undo
import ConfigSteward.Proofs.Site.Validity
import ConfigSteward.Proofs.Site.Wholeness
import ConfigSteward.Proofs.World.AllOrNothing
import ConfigSteward.Shell.Programs
import ConfigSteward.Text.Quoted
