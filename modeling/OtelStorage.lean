import OtelStorage.Engine.Commit
import OtelStorage.Foundation.CasStore
import OtelStorage.BucketIndex.LineageSound
import OtelStorage.BucketIndex.Relations
import OtelStorage.Engine.Tenure
import OtelStorage.Engine.Writers
import OtelStorage.Engine.BlockIdentity
import OtelStorage.Engine.Rebase
import OtelStorage.Engine.Tombstones
import OtelStorage.Foundation.BinarySearch
import OtelStorage.Foundation.Fibers
import OtelStorage.Metrics.Downsample
import OtelStorage.Metrics.SampleMerge
import OtelStorage.Metrics.Freshest
import OtelStorage.Metrics.Read
import OtelStorage.Metrics.Compaction
import OtelStorage.Metrics.Recovery
import OtelStorage.Metrics.ExactlyOnce
import OtelStorage.Metrics.Head
import OtelStorage.Metrics.WalBatch
import OtelStorage.Metrics.Aggregate
import OtelStorage.Metrics.Resolve
import OtelStorage.Metrics.RecentTier
import OtelStorage.Metrics.Replica
import OtelStorage.Metrics.BucketFold
import OtelStorage.Metrics.Layout
import OtelStorage.Metrics.Regroup
import OtelStorage.Metrics.Buckets
import OtelStorage.Metrics.RollupCompose
import OtelStorage.Foundation.LeaseStore
import OtelStorage.Cluster.Fence
import OtelStorage.Cluster.Ownership
import OtelStorage.Foundation.Delimited
import OtelStorage.Query.ResultCache
import OtelStorage.Query.Matching
import OtelStorage.Record.Index
import OtelStorage.BucketIndex.BlockSet
import OtelStorage.BucketIndex.Format
import OtelStorage.Signal.Codec
import OtelStorage.Wal.Frame
import OtelStorage.Wal.Record
import OtelStorage.Wal.Walk
import OtelStorage.Wal.Replay
import OtelStorage.Wal.Salvage
import OtelStorage.Wal.Repair
import OtelStorage.Wal.TornInvariant
import OtelStorage.Wal.TornRuns
import OtelStorage.Wal.Accounting
import OtelStorage.BucketIndex.Ageing
import OtelStorage.Foundation.Settling
import OtelStorage.BucketIndex.Subsumed
import OtelStorage.Repair.Commit
import OtelStorage.Repair.Safety
import OtelStorage.Repair.Order
import OtelStorage.Foundation.LazyColumn
import OtelStorage.Metrics.RowMerge
import OtelStorage.Metrics.Cohorts
import OtelStorage.BucketIndex.FixedPoints
import OtelStorage.Foundation.Bits
import OtelStorage.Encoding.BitStream
import OtelStorage.Encoding.Chunk
import OtelStorage.Encoding.Timestamps
import OtelStorage.Metrics.HeadBuffers
import OtelStorage.Metrics.Weights
import OtelStorage.Metrics.FailedFlush
import OtelStorage.Metrics.FlushReads
import OtelStorage.Metrics.RollupClosure
import OtelStorage.Encoding.Decimal
import OtelStorage.Encoding.BitOps
import OtelStorage.Encoding.U128
import OtelStorage.Encoding.T64
import OtelStorage.Memlimit.Pool
