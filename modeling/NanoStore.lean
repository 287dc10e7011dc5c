import NanoStore.Wal.Replay
import NanoStore.Engine.Stability
import NanoStore.Engine.Serial
import NanoStore.Engine.Tables
import NanoStore.Table.BTreeRoundTrip
import NanoStore.Table.BTreeBackward
import NanoStore.Table.BTreeInterleaved
import NanoStore.Lsm.Compaction
import NanoStore.Lsm.Manifest
import NanoStore.Lsm.Writer
import NanoStore.Lsm.MemtableUsage
import NanoStore.Wal.GroupCommit
import NanoStore.Pager.Compact
import NanoStore.Table.MemoryBTree
import NanoStore.Table.AppendLog
import NanoStore.Table.FileBlob
import NanoStore.Table.PagedBlob
import NanoStore.Table.ArtHistory
import NanoStore.Table.Hnsw
import NanoStore.Table.FullTextPositions
import NanoStore.Table.TimeSeriesHistory
import NanoStore.Txn.Retained
import NanoStore.Txn.Deadlock
import NanoStore.Txn.Specialty
import NanoStore.Table.BloomInserts
import NanoStore.Table.Bloom
import NanoStore.Table.MemoryHash
import NanoStore.Wal.Agreement
import NanoStore.Pager.Allocations
import NanoStore.Wal.Panics
import NanoStore.Pager.FailedWrites
