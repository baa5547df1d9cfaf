import Tidehunter.Library.SortedMap
import Tidehunter.Library.AscList
import Tidehunter.Wal.Position
import Tidehunter.Wal.Layout
import Tidehunter.Index.Table
import Tidehunter.Index.TableView
import Tidehunter.Index.TableOps
import Tidehunter.Index.Levels
import Tidehunter.Flusher.Command
import Tidehunter.Flusher.Shards
import Tidehunter.Flusher.Views
import Tidehunter.LargeTable.Entry
import Tidehunter.Flusher.Result
import Tidehunter.LargeTable.EntryReads
import Tidehunter.LargeTable.Uncovered
import Tidehunter.LargeTable.Compaction
import Tidehunter.Wal.Log
import Tidehunter.Db.Records
import Tidehunter.Relocation.Cutoff
import Tidehunter.Flusher.Updates
import Tidehunter.LargeTable.Relocated
import Tidehunter.LargeTable.Quiescent
import Tidehunter.Db.State
import Tidehunter.Relocation.Batch
import Tidehunter.Relocation.IndexBased
import Tidehunter.Relocation.Copies
import Tidehunter.Db.Replay
import Tidehunter.Db.Restored
import Tidehunter.Relocation.Interrupted
import Tidehunter.Relocation.Rebuild
import Tidehunter.Relocation.Recovery
import Tidehunter.Relocation.WalBased
import Tidehunter.Relocation.WalRun
import Tidehunter.Relocation.Keys
import Tidehunter.Library.Machine
import Tidehunter.Wal.Disk
import Tidehunter.Wal.Chain
import Tidehunter.Wal.Lineage
import Tidehunter.Wal.LineageRuns
import Tidehunter.Wal.Cut
import Tidehunter.Db.CrashCut
import Tidehunter.Snapshot.Live
import Tidehunter.Snapshot.Reopen
import Tidehunter.Snapshot.PowerLoss
import Tidehunter.Index.TableDrain
import Tidehunter.LargeTable.Cell
import Tidehunter.Library.Journal
import Tidehunter.LargeTable.History
import Tidehunter.LargeTable.InFlight
import Tidehunter.LargeTable.CellReads
import Tidehunter.LargeTable.CellRuns
import Tidehunter.LargeTable.ValueCache
import Tidehunter.Library.Bytes
import Tidehunter.Wal.Allocator
import Tidehunter.Wal.Format
import Tidehunter.Wal.Frame
import Tidehunter.Wal.RoundTrip
import Tidehunter.Index.Cursor
import Tidehunter.LargeTable.Walk
import Tidehunter.Index.Format
import Tidehunter.Index.HeaderFormat
import Tidehunter.Index.UniformFormat
import Tidehunter.LargeTable.DiskReads
import Tidehunter.KeyShape.Cells
import Tidehunter.LargeTable.Iteration
import Tidehunter.LargeTable.Enumeration
import Tidehunter.Iterators.Neighbours
import Tidehunter.Iterators.DbIterator
import Tidehunter.Iterators.Yields
import Tidehunter.Iterators.Bounded
import Tidehunter.Iterators.Configured
import Tidehunter.Iterators.Agreement
import Tidehunter.Db.Lifecycle
import Tidehunter.Wal.Tracker
import Tidehunter.Wal.Tracking
import Tidehunter.Wal.Mapper
import Tidehunter.Wal.Mapping
import Tidehunter.Wal.Reclaim
import Tidehunter.Index.FlatBuffer
import Tidehunter.Library.Overlay
import Tidehunter.Index.FlatSearch
import Tidehunter.Index.PackedTable
import Tidehunter.Index.PackedWrites
import Tidehunter.Index.PackedPromote
import Tidehunter.Index.PackedMerge
