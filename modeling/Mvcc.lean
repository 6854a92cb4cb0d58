import Mvcc.Console.Filters
import Mvcc.Console.Inspect
import Mvcc.Console.Stand
import Mvcc.Main
import Mvcc.Proofs.Batch.Conflict
import Mvcc.Proofs.Batch.Contention
import Mvcc.Proofs.Batch.Verdicts
import Mvcc.Proofs.Cell.Scan
import Mvcc.Proofs.Cell.Turns
import Mvcc.Proofs.Cell.VersionMap
import Mvcc.Proofs.Clock.Alone
import Mvcc.Proofs.Clock.Blocks
import Mvcc.Proofs.Clock.Exchange
import Mvcc.Proofs.Clock.FrameStream
import Mvcc.Proofs.Clock.MarkFile
import Mvcc.Proofs.Clock.Routing
import Mvcc.Proofs.Clock.Serving
import Mvcc.Proofs.Data.Shelf
import Mvcc.Proofs.Schema.Demarcation
import Mvcc.Proofs.Schema.Order
import Mvcc.Proofs.Schema.Remembering
import Mvcc.Proofs.Service.AllOrNothing
import Mvcc.Proofs.Service.AnyOrder
import Mvcc.Proofs.Service.Overlap
import Mvcc.Proofs.Service.OwnWrites
import Mvcc.Proofs.Service.RepeatedRead
import Mvcc.Proofs.Service.SnapshotRead
import Mvcc.Proofs.Service.Tracking
import Mvcc.Proofs.Snapshot.Compacting
import Mvcc.Proofs.Snapshot.Pool
import Mvcc.Proofs.Snapshot.Stopping
import Mvcc.Proofs.Txn.Ancestry
import Mvcc.Proofs.Txn.CommitTime
import Mvcc.Proofs.Txn.Depth
import Mvcc.Proofs.Txn.Effective
import Mvcc.Proofs.Txn.EffectiveCommit
import Mvcc.Proofs.Txn.Isolation
import Mvcc.Proofs.Txn.Lifecycle
import Mvcc.Proofs.Txn.Listing
import Mvcc.Proofs.Txn.Lockstep
import Mvcc.Proofs.Txn.SlotCodec
import Mvcc.Proofs.Txn.Staging
import Mvcc.Proofs.Txn.Transparency
import Mvcc.Text.Hex
