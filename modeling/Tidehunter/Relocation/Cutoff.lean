import Tidehunter.Db.Records
import Tidehunter.LargeTable.Uncovered

/-!
# The cutoff flush of a key space with a relocation filter

A WAL-based relocation run does not copy the records of a key space with a filter. It
flushes each of its cells with the terminal position of the run as a cutoff, which
drops the entries below that position from the table being written, and then reclaims
the log up to the target position. The target is at most the terminal position, so
entries between the two stay readable.
-/

namespace Tidehunter.Relocation

open Library Wal Index Flusher LargeTable Db

/-- The value of a user key: through the index of its cell to the record. The batch
codec is off whenever a WAL-based run is allowed. -/
def readKey (ks : KeySpaceDesc) (log : Log) (entry : Entry Bytes) (key : Bytes) : Option Bytes :=
  (ks.reduceKey key).bind fun indexKey =>
    (entry.get indexKey).bind (readRecordCheckKey ks false log key)

/-- What a run settles on before it visits a cell: its terminal position, the target
rounded down to a file, the point it reclaims up to, and what the flush reads. -/
structure CutoffPlan (log : Log) where
  terminalPosition : Nat
  targetPosition : Nat
  reclaimPosition : Nat
  mapped : List Nat
  lastProcessed : Nat
  view : LogView
  target_le : targetPosition ≤ terminalPosition
  target_aligned : targetPosition % log.layout.walFileSize = 0
  target_large : log.layout.walFileSize + log.minWalPosition ≤ targetPosition
  reclaim_le : reclaimPosition ≤ targetPosition
  frontier_le : lastProcessed ≤ view.lastProcessed
  floor_eq : view.minWalPosition = log.minWalPosition

namespace CutoffPlan

variable {log : Log} (plan : CutoffPlan log)

theorem floor_le_terminal : plan.view.minWalPosition ≤ plan.terminalPosition := by
  have large := plan.target_large
  have ordered := plan.target_le
  rw [plan.floor_eq]
  omega

/-- The cell after its cutoff flush. -/
def flush (ks : KeySpaceDesc) (writer : IndexWriter) (cell : Entry.Settled Bytes) : Entry Bytes :=
  (cell.entry.syncFlush ks.config plan.lastProcessed plan.view writer
    (.cutoff plan.terminalPosition)).2

/-- The log after the reclamation that ends the run. -/
def reclaimed : Log := log.gc plan.reclaimPosition plan.mapped

/-- The flush finds an entry below the terminal position. -/
def cuts (cell : Entry.Settled Bytes) : Prop :=
  ((cell.entry.prepared.flushed plan.view).retainAbovePosition plan.terminalPosition).len ≠
    (cell.entry.prepared.flushed plan.view).len

/-- The flush uncovers an older version of a key: no write of the key stays in memory,
the cutoff (or the compactor) drops the entry a reader saw, and what lies beneath is
readable after the reclamation and is another value. -/
def Uncovers (ks : KeySpaceDesc) (cell : Entry.Settled Bytes) (key indexKey : Bytes) : Prop :=
  plan.cuts cell ∧ cell.entry.prepared.unflushed plan.lastProcessed indexKey = none ∧
    (CompactorUncovers ks.config plan.view (cell.entry.prepared.flushed plan.view)
        plan.terminalPosition cell.entry.levels.deep indexKey
        (readRecordCheckKey ks false log key) (readRecordCheckKey ks false plan.reclaimed key) ∨
      FilterUncovers ks.config plan.view (cell.entry.prepared.flushed plan.view)
        plan.terminalPosition cell.entry.levels.deep indexKey
        (readRecordCheckKey ks false log key) (readRecordCheckKey ks false plan.reclaimed key))

/-- A cutoff flush that finds nothing to cut leaves the cell as it prepared it. -/
theorem flush_of_not_cuts (ks : KeySpaceDesc) (writer : IndexWriter) {cell : Entry.Settled Bytes}
    (nothing : ¬ plan.cuts cell) : plan.flush ks writer cell = cell.entry.prepared := by
  obtain ⟨loaded, prepares, table⟩ := Entry.prepareSyncFlush_relocation cell.ok cell.idle
    (show (RelocationFlush.cutoff plan.terminalPosition : RelocationFlush Bytes) ≠ .none from nofun)
  rw [flush, Entry.syncFlush, prepares]
  simp only [handleCommand_cutoff, table]
  rw [if_pos (not_not.mp nothing)]

theorem flush_of_cuts (ks : KeySpaceDesc) (writer : IndexWriter) {cell : Entry.Settled Bytes}
    (something : plan.cuts cell) :
    plan.flush ks writer cell = Entry.finishSyncFlush ks.config plan.lastProcessed
      cell.entry.prepared
      (writeFiltered ks.config plan.view writer ((cell.entry.prepared.flushed plan.view).retainAbovePosition
        plan.terminalPosition) cell.entry.levels []).2 := by
  obtain ⟨loaded, prepares, table⟩ := Entry.prepareSyncFlush_relocation cell.ok cell.idle
    (show (RelocationFlush.cutoff plan.terminalPosition : RelocationFlush Bytes) ≠ .none from nofun)
  rw [flush, Entry.syncFlush, prepares]
  simp only [handleCommand_cutoff, table]
  rw [if_neg something]

/-- After a cutoff flush that cuts, a key reads an unflushed write or the new levels. -/
theorem get_flush_of_cuts (ks : KeySpaceDesc) (writer : IndexWriter) {cell : Entry.Settled Bytes}
    (something : plan.cuts cell) (indexKey : Bytes) :
    (plan.flush ks writer cell).get indexKey =
      match cell.entry.prepared.unflushed plan.lastProcessed indexKey with
      | some position => readable (some position)
      | none => writtenView ks.config plan.view (cell.entry.prepared.flushed plan.view)
          plan.terminalPosition cell.entry.levels.deep indexKey := by
  rw [plan.flush_of_cuts ks writer something, Entry.get_finishSyncFlush]
  cases cell.entry.prepared.unflushed plan.lastProcessed indexKey with
  | some position => rfl
  | none => exact view_writeFiltered ks.config plan.view writer _ cell.entry.levels [] indexKey

end CutoffPlan

/-- A key space with one-byte keys and a filter that removes every record. -/
def pruned : KeySpaceDesc where
  id := 0
  keyIndexing := .fixed 1
  hashKey := id
  cellId := fun _ => 0
  config :=
    { l0MaxEntries := 8
      autoShardThreshold := none
      serializedLen := fun content => 20 * content.size
      compactor := none
      unloadingDisabled := false }
  relocationFilter := some fun _ _ => .remove

/-- One file of other records, then key 7 written at 64 and at 80. The frame at 96 is
still being applied. -/
def twoVersions : Log where
  layout := WalLayout.small
  frames := SortedMap.empty.insertAll
    [(0, .record 0 [1] [0] false), (16, .record 0 [2] [0] false), (32, .record 0 [3] [0] false),
      (48, .record 0 [4] [0] false), (64, .record 0 [7] [1] false), (80, .record 0 [7] [2] false),
      (96, .record 0 [5] [0] false)]
  position := 112
  removed := []
  frames_lt := by decide
  removed_lt := nofun
  position_le := by decide

/-- The first version is in `L1`, the second in memory. -/
def splitVersions : Entry.Settled Bytes where
  entry :=
    { state := .dirtyUnloaded
      levels := ⟨none, .l1 ⟨⟨0, 30⟩, SortedMap.empty.insert [7] ⟨64, 14⟩⟩⟩
      data := ⟨SortedMap.empty.insert [7]
        (AscList.singleton (IndexWalPosition.newModified ⟨80, 14⟩)), SortedMap.empty⟩
      version := 1
      lastProcessed := 80
      pendingLastProcessed := none }
  ok := ⟨nofun, nofun, nofun⟩
  idle := rfl

/-- The run scans up to the frontier at 96 and reclaims the first file. -/
def upToFrontier : CutoffPlan twoVersions where
  terminalPosition := 96
  targetPosition := 64
  reclaimPosition := 64
  mapped := []
  lastProcessed := 96
  view := ⟨96, 0, 112, by decide, by decide⟩
  target_le := by decide
  target_aligned := by decide
  target_large := by decide
  reclaim_le := by decide
  frontier_le := by decide
  floor_eq := by decide

end Tidehunter.Relocation
