import IdeMode.Host.Executable
import IdeMode.Main
import IdeMode.Request.Report
import IdeMode.Proofs.Session.Skips
import IdeMode.Proofs.Session.Overlap
import IdeMode.Proofs.Session.Whereabouts
import IdeMode.Proofs.Calls.Stranded
import IdeMode.Proofs.Startup.FirstUse
import IdeMode.Proofs.Client.Routing
import IdeMode.Proofs.Session.Sending
import IdeMode.Proofs.Tools.Reloading
import IdeMode.Proofs.Tools.Idleness
import IdeMode.Proofs.Client.Characters
import IdeMode.Proofs.Buffer.Positions
import IdeMode.Proofs.Editing.Vanished
import IdeMode.Proofs.Editing.Dialogue
import IdeMode.Proofs.Startup.FailedStart
import IdeMode.Proofs.Buffer.Names
import IdeMode.Proofs.Session.Printing
import IdeMode.Proofs.Tools.Reports
import IdeMode.Proofs.CommandLine.Options
import IdeMode.Proofs.Calls.Counters
import IdeMode.Proofs.Snippet.Fields
