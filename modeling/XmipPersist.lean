import XmipPersist.Library.Counted
import XmipPersist.Verification.Origin.Held
import XmipPersist.Library.Decision
import XmipPersist.Library.Lease
import XmipPersist.Library.Once
import XmipPersist.Library.OrderedSet
import XmipPersist.Library.Synced
import XmipPersist.Model.Commit
import XmipPersist.Model.Syncer
import XmipPersist.Model.Client
import XmipPersist.Model.Calls
import XmipPersist.Model.Lending
import XmipPersist.Model.Stopping
import XmipPersist.Model.Attempt
import XmipPersist.Verification.Audit.Chain
import XmipPersist.Verification.Audit.Copied
import XmipPersist.Verification.Audit.Durable
import XmipPersist.Verification.Claim.Fencing
import XmipPersist.Verification.Claim.Repeat
import XmipPersist.Verification.Durability.Answers
import XmipPersist.Verification.Durability.Statement
import XmipPersist.Verification.Writer.Failure
import XmipPersist.Verification.Instance.Turns
import XmipPersist.Verification.Queue.Failed
import XmipPersist.Verification.Queue.Kept
import XmipPersist.Verification.Queue.Moments
import XmipPersist.Verification.Queue.Replayed
import XmipPersist.Verification.Queue.Seats
import XmipPersist.Verification.Standby.Calls
import XmipPersist.Verification.Standby.Lending
import XmipPersist.Verification.Standby.Stopping
import XmipPersist.Verification.Standby.Whole
import XmipPersist.Verification.Standby.Epoch
import XmipPersist.Verification.Standby.Promotion
import XmipPersist.Verification.Schema.Connection
import XmipPersist.Verification.Schema.Version
import XmipPersist.Verification.Schema.WellFormed
import XmipPersist.Model.ChunkReader
import XmipPersist.Model.Secrets
import XmipPersist.Verification.Secret.Table
import XmipPersist.Verification.Stream.Exactly
import XmipPersist.Verification.Audit.Attempted
import XmipPersist.Verification.Wire.Crossing
import XmipPersist.Verification.Wire.Remote
import XmipPersist.Verification.Standby.Handed
import XmipPersist.Verification.Writer.Decided
import XmipPersist.Verification.Encrypted.Kept
import XmipPersist.Verification.Encrypted.Moved
import XmipPersist.Verification.Query.Administered
import XmipPersist.Verification.AtRest.Kept
import XmipPersist.Verification.Queue.Stood
