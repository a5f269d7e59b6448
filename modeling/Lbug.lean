import Lbug.Buffer.EvictionQueue
import Lbug.Buffer.PinFailure
import Lbug.Catalog.Sequence
import Lbug.Common.Interval
import Lbug.Gds.EarlyTermination
import Lbug.Index.HashIndexAppend
import Lbug.Optimizer.LimitExactness
import Lbug.Optimizer.UnwindDedup
import Lbug.Processor.AggregateResult
import Lbug.Storage.AppendProgress
import Lbug.Storage.CSRHistory
import Lbug.Storage.ChunkSplit
import Lbug.Storage.DiskArrayCollection
import Lbug.Storage.DiskArrayDurability
import Lbug.Storage.FailedCheckpoints
import Lbug.Storage.HeaderPage
import Lbug.Storage.NodeTable
import Lbug.Storage.PendingPages
import Lbug.Storage.TableReclaim
import Lbug.Storage.UpdateScan
import Lbug.Storage.VersionSerialization
import Lbug.Storage.ZoneMap
import Lbug.Transaction.Deadlock
