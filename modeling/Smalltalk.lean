import Smalltalk.Fleet.Removal
import Smalltalk.Exchange.Counts
import Smalltalk.Exchange.ClaimWalk
import Smalltalk.Retention.StagedPlan
import Smalltalk.OwnedSets.Projection
import Smalltalk.Writer.Batch
import Smalltalk.Writer.Progress
import Smalltalk.Mailbox.Custody
import Smalltalk.Projection.Exact
import Smalltalk.Requests.Once
import Smalltalk.Identities.Agree
import Smalltalk.Ivm.CatchUp
import Smalltalk.Ivm.Recomputed
import Smalltalk.Canonical.LeastPositions
import Smalltalk.Principals.Sound
import Smalltalk.Ranges.Compare
import Smalltalk.Retired.Exact
import Smalltalk.Join.Secure
import Smalltalk.Operations.Register
import Smalltalk.Redemption.Guesses
import Smalltalk.Redemption.Names
import Smalltalk.Redemption.Uninterrupted
import Smalltalk.Principals.Signed
import Smalltalk.Store.Generation
import Smalltalk.Store.Passes
import Smalltalk.Sequences.WriteTime
import Smalltalk.Sealing.Frontier
import Smalltalk.Agreement.Stable
import Smalltalk.Desired.Selection
import Smalltalk.Missions.Clock
import Smalltalk.Missions.Revision
import Smalltalk.Seats.Queue
import Smalltalk.Store.Repeated
import Smalltalk.Missions.Calendar
import Smalltalk.Delivery.Silent
import Smalltalk.Retention.Harness
import Smalltalk.Principals.Judging
import Smalltalk.Documents.Pages
import Smalltalk.Exchange.Rotation
import Smalltalk.Documents.Binding
import Smalltalk.Principals.Rules
import Smalltalk.Store.Hashed
import Smalltalk.Missions.Variables
