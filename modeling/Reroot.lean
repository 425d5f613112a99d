import Reroot.Document.Data
import Reroot.Main
import Reroot.Run
import Reroot.Document.Distinct
import Reroot.Document.Place
import Reroot.Disk.Change
import Reroot.Proofs.Lifting
import Reroot.Proofs.Overlay
import Reroot.Proofs.Plain
import Reroot.Proofs.Provenance
import Reroot.Proofs.Representation
import Reroot.Proofs.Misfits
import Reroot.Proofs.Paths
import Reroot.Proofs.Files
import Reroot.Proofs.Runs
import Reroot.Proofs.Strings
import Reroot.Proofs.Redirected
import Reroot.Manifest.Passes
import Reroot.Proofs.Settled
import Reroot.Proofs.Passed
import Reroot.Proofs.Built
import Reroot.Proofs.Measured
import Reroot.Proofs.Blanked
import Reroot.Manifest.Pinned
import Reroot.Proofs.Checkouts
import Reroot.Proofs.Pinned
import Reroot.Proofs.Staged
import Reroot.Proofs.Calm
import Reroot.Proofs.Repeated
import Reroot.Document.Line
import Reroot.Manifest.Untouched
import Reroot.Proofs.Spared
import Reroot.Proofs.Verbatim
import Reroot.Proofs.Moved
import Reroot.Proofs.Union
import Reroot.Manifest.PathDependencies
import Reroot.Proofs.Outermost
import Reroot.Proofs.Places
import Reroot.Proofs.Replaced
import Reroot.Proofs.Remaining
import Reroot.Proofs.Succession
import Reroot.Document.Reordered
import Reroot.Proofs.Reordered
import Reroot.Proofs.Relaid
import Reroot.Document.Comment
import Reroot.Proofs.Commented
import Reroot.Proofs.Dropped
import Reroot.Proofs.Neighbours
import Reroot.Proofs.Inserted
import Reroot.CommandLine.Grammar
import Reroot.Proofs.Accepted
